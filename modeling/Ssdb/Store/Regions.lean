import Ssdb.Library.Prefixed
import Ssdb.Store.Scan

namespace LevelDB
open Iterator

def region (db : LevelDB) (q : Bytes) : OrdMap Bytes Bytes := db.table.under q

def bound (q stop : Bytes) : Bytes := if stop = [] then [] else q ++ stop

theorem get_region (db : LevelDB) (q k : Bytes) : (db.region q).get k = db.table.get (q ++ k) :=
  OrdMap.get_under q db.table k

theorem mem_region {db : LevelDB} {q : Bytes} {e : Bytes × Bytes} :
    e ∈ (db.region q).entries ↔ db.table.get (q ++ e.1) = some e.2 := by
  rw [← get_region, ← OrdMap.mem_entries_iff]

theorem bound_le {q stop : Bytes} (h : stop ≠ []) (key : Bytes) :
    (bound q stop = [] ∨ key ≤ bound q stop) ↔ key ≤ q ++ stop := by
  simp [bound, h]

theorem le_bound {q stop : Bytes} (h : stop ≠ []) (key : Bytes) :
    (bound q stop = [] ∨ bound q stop ≤ key) ↔ q ++ stop ≤ key := by
  simp [bound, h]

theorem between_extend (q start stop : Bytes) (e : Bytes × Bytes) :
    between (q ++ start) (bound q stop) (OrdMap.extend q e) = between start stop e := by
  rcases eq_or_ne stop [] with rfl | h
  · simp [between, bound, OrdMap.extend, Lexicographic.append_lt_append_iff]
  · simp [between, bound, OrdMap.extend, Lexicographic.append_lt_append_iff,
      Lexicographic.append_le_append_iff, h]

theorem betweenDown_extend (q start stop : Bytes) (e : Bytes × Bytes) :
    betweenDown (q ++ start) (bound q stop) (OrdMap.extend q e) = betweenDown start stop e := by
  rcases eq_or_ne stop [] with rfl | h
  · simp [betweenDown, bound, OrdMap.extend, Lexicographic.append_lt_append_iff]
  · simp [betweenDown, bound, OrdMap.extend, Lexicographic.append_lt_append_iff,
      Lexicographic.append_le_append_iff, h]

theorem forward_pending (db : LevelDB) (q start stop : Bytes) (h : q ++ stop ≠ [])
    (limit : ℕ) : (db.iterator (q ++ start) (q ++ stop) limit).pending =
      (((db.region q).entries.filter (fun e => start < e.1 ∧ e.1 ≤ stop)).take limit).map
        (OrdMap.extend q) := by
  have hall : (db.table.entries.filter (between (q ++ start) (q ++ stop))).filter
      (fun e => q <+: e.1) = db.table.entries.filter (between (q ++ start) (q ++ stop)) := by
    refine List.filter_eq_self.mpr fun e he => ?_
    obtain ⟨hlow, hhigh⟩ := of_decide_eq_true (List.mem_filter.mp he).2
    obtain ⟨k, hk⟩ := Lexicographic.prefix_of_between hlow.le (hhigh.resolve_left h)
    exact decide_eq_true ⟨k, hk.symm⟩
  have hrange (e : Bytes × Bytes) : between (q ++ start) (q ++ stop) (OrdMap.extend q e) =
      decide (start < e.1 ∧ e.1 ≤ stop) := by
    simp only [between, OrdMap.extend, Lexicographic.append_lt_append_iff,
      Lexicographic.append_le_append_iff, h, false_or]
  rw [iterator_pending, ← hall, OrdMap.filter_under hrange, List.map_take]
  rfl

theorem backward_pending (db : LevelDB) (q start stop : Bytes) (h : q ++ stop ≠ [])
    (limit : ℕ) : (db.revIterator (q ++ start) (q ++ stop) limit).pending =
      (((db.region q).entries.filter (fun e => e.1 < start ∧ stop ≤ e.1)).reverse.take limit).map
        (OrdMap.extend q) := by
  have hall : (db.table.entries.filter (betweenDown (q ++ start) (q ++ stop))).filter
      (fun e => q <+: e.1) = db.table.entries.filter (betweenDown (q ++ start) (q ++ stop)) := by
    refine List.filter_eq_self.mpr fun e he => ?_
    obtain ⟨hhigh, hlow⟩ := of_decide_eq_true (List.mem_filter.mp he).2
    obtain ⟨k, hk⟩ := Lexicographic.prefix_of_between (hlow.resolve_left h) hhigh.le
    exact decide_eq_true ⟨k, hk.symm⟩
  have hrange (e : Bytes × Bytes) : betweenDown (q ++ start) (q ++ stop) (OrdMap.extend q e) =
      decide (e.1 < start ∧ stop ≤ e.1) := by
    simp only [betweenDown, OrdMap.extend, Lexicographic.append_lt_append_iff,
      Lexicographic.append_le_append_iff, h, false_or]
  rw [revIterator_pending, ← hall, OrdMap.filter_under hrange, List.map_take, List.map_reverse]
  rfl

structure Yields {α : Type} (db : LevelDB) (q stop : Bytes) (f : Bytes × Bytes → Verdict α)
    (g : Bytes × Bytes → α) : Prop where
  item : ∀ e ∈ (db.region q).entries, f (OrdMap.extend q e) = .item (g e)
  ends : stop = [] → ∀ e ∈ db.table.entries, ¬q <+: e.1 → f e = .stop

variable {α : Type} {db : LevelDB} {q stop : Bytes} {f : Bytes × Bytes → Verdict α}
  {g : Bytes × Bytes → α}

namespace Yields

theorem inside (h : Yields db q stop f g) {e : Bytes × Bytes} (he : e ∈ db.table.entries)
    (hq : q <+: e.1) : f e = .item (g (OrdMap.strip q e)) := by
  have hmem : OrdMap.strip q e ∈ (db.region q).entries :=
    List.mem_map.mpr ⟨e, List.mem_filter.mpr ⟨he, decide_eq_true hq⟩, rfl⟩
  have hitem := h.item _ hmem
  rwa [OrdMap.extend_strip hq] at hitem

theorem strip_map (p : Bytes × Bytes → Bool) (l : List (Bytes × Bytes)) :
    ((l.filter p).map (OrdMap.extend q)).map (fun e => g (OrdMap.strip q e)) = (l.filter p).map g := by
  rw [List.map_map]
  exact List.map_congr_left fun e _ => congrArg g (OrdMap.strip_extend q e)

theorem forward (h : Yields db q stop f g) (start : Bytes) (limit : ℕ) :
    (db.iterator (q ++ start) (bound q stop) limit).items f =
      (((db.region q).entries.filter (between start stop)).take limit).map g := by
  have habove (e : Bytes × Bytes) (he : between (q ++ start) (bound q stop) e = true) :
      q ++ start < e.1 ∧ (bound q stop = [] ∨ e.1 ≤ bound q stop) := of_decide_eq_true he
  rw [items_collect, iterator_pending, collect_while (g := fun e => g (OrdMap.strip q e))
    (p := fun e => q <+: e.1), OrdMap.takeWhile_upward fun e he => (habove e he).1.le,
    OrdMap.filter_under (between_extend q start stop), strip_map, List.map_take]
  · rfl
  · intro e he hq
    exact h.inside (List.mem_filter.mp he).1 (of_decide_eq_true hq)
  · intro e he hq
    obtain ⟨he, hb⟩ := List.mem_filter.mp he
    have hnot : ¬q <+: e.1 := of_decide_eq_false hq
    rcases eq_or_ne stop [] with hstop | hstop
    · exact h.ends hstop e he hnot
    · have hle := (bound_le hstop e.1).mp (habove e hb).2
      obtain ⟨k, hk⟩ := Lexicographic.prefix_of_between (habove e hb).1.le hle
      exact absurd ⟨k, hk.symm⟩ hnot

theorem backward (h : Yields db q stop f g) (start : Bytes) (limit : ℕ) :
    (db.revIterator (q ++ start) (bound q stop) limit).items f =
      (((db.region q).entries.filter (betweenDown start stop)).reverse.take limit).map g := by
  have hbelow (e : Bytes × Bytes) (he : betweenDown (q ++ start) (bound q stop) e = true) :
      e.1 < q ++ start ∧ (bound q stop = [] ∨ bound q stop ≤ e.1) := of_decide_eq_true he
  rw [items_collect, revIterator_pending, collect_while (g := fun e => g (OrdMap.strip q e))
    (p := fun e => q <+: e.1), OrdMap.takeWhile_downward fun e he => (hbelow e he).1.le,
    OrdMap.filter_under (betweenDown_extend q start stop), List.map_reverse, strip_map,
    ← List.map_reverse, List.map_take]
  · rfl
  · intro e he hq
    exact h.inside (List.mem_filter.mp (List.mem_reverse.mp he)).1 (of_decide_eq_true hq)
  · intro e he hq
    obtain ⟨he, hb⟩ := List.mem_filter.mp (List.mem_reverse.mp he)
    have hnot : ¬q <+: e.1 := of_decide_eq_false hq
    rcases eq_or_ne stop [] with hstop | hstop
    · exact h.ends hstop e he hnot
    · have hle := (le_bound hstop e.1).mp (hbelow e hb).2
      obtain ⟨k, hk⟩ := Lexicographic.prefix_of_between hle (hbelow e hb).1.le
      exact absurd ⟨k, hk.symm⟩ hnot

end Yields

theorem yields_names {type : Byte} {decode : Bytes → Option Bytes}
    (hdecode : ∀ n, decode (type :: n) = some n) (db : LevelDB) (stop : Bytes) :
    db.Yields [type] stop (nameVerdict type decode) Prod.fst where
  item e _ := by
    have hkey : (OrdMap.extend [type] e).1 = type :: e.1 := rfl
    simp [nameVerdict, hkey, hdecode]
  ends _ e _ hq := by
    have hhead : e.1.head? ≠ some type := by
      intro h
      obtain ⟨rest, hrest⟩ := List.head?_eq_some_iff.mp h
      exact hq ⟨rest, hrest.symm⟩
    rw [nameVerdict, if_pos hhead]

end LevelDB
