import Ssdb.Store.Regions
import Ssdb.Theory.Mixed

namespace OrdMap
open LevelDB

variable {R : OrdMap Bytes Bytes} {α : Type} {g : Bytes × Bytes → α} {p : α → Bytes} {limit : ℕ}

def upward (R : OrdMap Bytes Bytes) (limit : ℕ) : List (Bytes × Bytes) :=
  (R.entries.filter (between [] [])).take limit

def downward (R : OrdMap Bytes Bytes) (limit : ℕ) : List (Bytes × Bytes) :=
  (R.entries.filter (betweenDown [255] [])).reverse.take limit

theorem mem_upward (hlimit : R.size ≤ limit) {e : Bytes × Bytes} :
    e ∈ R.upward limit ↔ e ∈ R.entries ∧ e.1 ≠ [] := by
  have hlen : (R.entries.filter (between [] [])).length ≤ limit :=
    (List.length_filter_le _ _).trans hlimit
  rw [upward, List.take_of_length_le hlen, List.mem_filter]
  simp [between, Lexicographic.nil_lt_iff]

theorem count_upward (hlimit : R.size ≤ limit) {k : Bytes} (hk : k ∈ R.keys) :
    ((R.upward limit).map Prod.fst).count k = 1 ↔ k ≠ [] := by
  obtain ⟨e, he, rfl⟩ := List.mem_map.mp hk
  have hsub : ((R.upward limit).map Prod.fst).Sublist R.keys :=
    ((List.take_sublist _ _).trans List.filter_sublist).map _
  have hnodup := R.keys_nodup.sublist hsub
  constructor
  · intro hone
    have hmem : e.1 ∈ (R.upward limit).map Prod.fst := List.count_pos_iff.mp (by omega)
    obtain ⟨e', he', hkey⟩ := List.mem_map.mp hmem
    rw [← hkey]
    exact ((mem_upward hlimit).mp he').2
  · intro hne
    have hmem : e ∈ R.upward limit := (mem_upward hlimit).mpr ⟨he, hne⟩
    exact List.count_eq_one_of_mem hnodup (List.mem_map_of_mem hmem)

theorem lt_last_iff {k : Bytes} : k < [255] ↔ k.head? ≠ some 255 := by
  cases k with
  | nil => simp [Lexicographic.nil_lt_iff]
  | cons b k =>
    have hb : b < 255 ↔ b ≠ 255 := by
      have hlast : (255 : Byte).val = 255 := rfl
      rw [Fin.lt_def, ne_eq, Fin.ext_iff, hlast]
      omega
    rw [List.cons_lt_cons_iff, hb]
    simp

theorem mem_downward (hlimit : R.size ≤ limit) {e : Bytes × Bytes} :
    e ∈ R.downward limit ↔ e ∈ R.entries ∧ e.1.head? ≠ some 255 := by
  have hlen : (R.entries.filter (betweenDown [255] [])).reverse.length ≤ limit := by
    rw [List.length_reverse]
    exact (List.length_filter_le _ _).trans hlimit
  rw [downward, List.take_of_length_le hlen, List.mem_reverse, List.mem_filter]
  simp [betweenDown, lt_last_iff]

theorem upward_all (h0 : R.get [] = none) (hlimit : R.size ≤ limit) : R.upward limit = R.entries := by
  rw [upward, List.filter_eq_self.mpr, List.take_of_length_le hlimit]
  intro e he
  have hne : e.1 ≠ [] := by
    intro h
    have hget := (mem_entries_iff R e.1 e.2).mp he
    rw [h, h0] at hget
    exact absurd hget (by simp)
  simp [between, (Lexicographic.nil_lt_iff e.1).mpr hne]

theorem mirror_iff (h0 : R.get [] = none) (hlimit : R.size ≤ limit) (hg : ∀ e, p (g e) = e.1) :
    (R.downward limit).map g = ((R.upward limit).map g).reverse ↔
      ∀ k ∈ R.keys, k.head? ≠ some 255 := by
  constructor
  · intro h k hk
    obtain ⟨e, he, rfl⟩ := List.mem_map.mp hk
    have hmem : g e ∈ (R.downward limit).map g := by
      rw [h, List.mem_reverse, upward_all h0 hlimit]
      exact List.mem_map_of_mem he
    obtain ⟨e', he', hsame⟩ := List.mem_map.mp hmem
    have hkey := congrArg p hsame
    rw [hg, hg] at hkey
    rw [← hkey]
    exact ((mem_downward hlimit).mp he').2
  · intro h
    have hall : R.entries.filter (betweenDown [255] []) = R.entries := by
      refine List.filter_eq_self.mpr fun e he => ?_
      simp [betweenDown, lt_last_iff, h e.1 (List.mem_map_of_mem he)]
    have hlen : R.entries.reverse.length ≤ limit := by
      rw [List.length_reverse]
      exact hlimit
    rw [upward_all h0 hlimit, downward, hall, List.take_of_length_le hlen, List.map_reverse]

def Greatest (there : Bytes → Prop) (last : Bytes) : Prop :=
  (∀ k, ¬there k) ∧ last = [] ∨ there last ∧ ∀ k, there k → k ≤ last

theorem greatest_iff : Greatest (· ∈ R.keys) (((R.downward 1).map Prod.fst).head?.getD []) ↔
    ∀ k ∈ R.keys, k.head? ≠ some 255 := by
  have hmem (e : Bytes × Bytes) : e ∈ (R.entries.filter (betweenDown [255] [])).reverse ↔
      e ∈ R.entries ∧ e.1.head? ≠ some 255 := by
    simp [betweenDown, lt_last_iff]
  have hsorted : (R.entries.filter (betweenDown [255] [])).reverse.Pairwise (fun e e' => e'.1 < e.1) :=
    List.pairwise_reverse.mpr (R.sorted.filter _)
  rw [downward]
  cases hl : (R.entries.filter (betweenDown [255] [])).reverse with
  | nil =>
    rw [hl] at hmem
    constructor
    · rintro (⟨hnone, -⟩ | ⟨-, hle⟩) k hk
      · exact absurd hk (hnone k)
      · have hnil : k = [] := le_antisymm (hle k hk) (Lexicographic.nil_le k)
        simp [hnil]
    · intro h
      refine .inl ⟨fun k hk => ?_, rfl⟩
      obtain ⟨e, he, rfl⟩ := List.mem_map.mp hk
      exact List.not_mem_nil ((hmem e).mpr ⟨he, h e.1 hk⟩)
  | cons e es =>
    rw [hl] at hmem hsorted
    obtain ⟨he, hlow⟩ := (hmem e).mp (by simp)
    have hkey : e.1 ∈ R.keys := List.mem_map_of_mem he
    have hbelow : e.1 < [255] := lt_last_iff.mpr hlow
    change Greatest (· ∈ R.keys) e.1 ↔ _
    constructor
    · rintro (⟨hnone, -⟩ | ⟨-, hle⟩) k hk
      · exact absurd hkey (hnone e.1)
      · exact lt_last_iff.mp ((hle k hk).trans_lt hbelow)
    · intro h
      refine .inr ⟨hkey, fun k hk => ?_⟩
      obtain ⟨e', he', rfl⟩ := List.mem_map.mp hk
      rcases List.mem_cons.mp ((hmem e').mpr ⟨he', h e'.1 hk⟩) with rfl | hrest
      · exact le_rfl
      · exact ((List.pairwise_cons.mp hsorted).1 e' hrest).le

end OrdMap

namespace LevelDB

theorem yields_pairs (db : LevelDB) (stop : Bytes) : db.Yields [DataType.KV] stop kVerdict id where
  item e _ := by
    have hhead : (OrdMap.extend [DataType.KV] e).1.head? = some DataType.KV := rfl
    have hkey : Keys.decodeKvKey (OrdMap.extend [DataType.KV] e).1 = some e.1 := rfl
    simp only [kVerdict, hhead, ne_eq, not_true_eq_false, if_false, hkey]
    rfl
  ends _ e _ hq := by
    have hhead : e.1.head? ≠ some DataType.KV := by
      intro h
      obtain ⟨rest, hrest⟩ := List.head?_eq_some_iff.mp h
      exact hq ⟨rest, hrest.symm⟩
    rw [kVerdict, if_pos hhead]

end LevelDB

namespace SSDBImpl
open Keys LevelDB

variable {w : SSDBImpl} {n : Bytes}

theorem scan_pairs (w : SSDBImpl) (limit : UInt64) : (scan [] [] limit w).1.rest =
    (w.ldb.region [DataType.KV]).upward limit.toNat :=
  ((w.ldb.yields_pairs []).forward [] limit.toNat).trans (List.map_id _)

theorem rscan_pairs (w : SSDBImpl) (limit : UInt64) : (rscan [] [] limit w).1.rest =
    (w.ldb.region [DataType.KV]).downward limit.toNat :=
  ((w.ldb.yields_pairs []).backward [255] limit.toNat).trans (List.map_id _)

section names
variable {type : Byte} {decode : Bytes → Option Bytes} (hdecode : ∀ n, decode (type :: n) = some n)
include hdecode

theorem names_upward (db : LevelDB) (limit : ℕ) : names type decode (db.iterator [type] [] limit) =
    ((db.region [type]).upward limit).map Prod.fst :=
  (db.yields_names hdecode []).forward [] limit

theorem names_downward (db : LevelDB) (limit : ℕ) :
    names type decode (db.revIterator [type, 255] [] limit) =
      ((db.region [type]).downward limit).map Prod.fst :=
  (db.yields_names hdecode []).backward [255] limit

theorem rangeEnd_names (it : Iterator) :
    rangeEnd type decode it = (0, ((names type decode it).head?).getD []) := by
  rw [names, Iterator.items_collect, rangeEnd]
  cases hp : it.pending with
  | nil =>
    obtain ⟨j, hj, -⟩ := Iterator.next_nil hp
    rw [hj]
    rfl
  | cons e es =>
    obtain ⟨j, hj, he, -⟩ := Iterator.next_cons hp
    obtain ⟨key, val⟩ := e
    have hkey : j.key = key := congrArg Prod.fst he
    simp only [hj, hkey, Iterator.collect, nameVerdict]
    cases key with
    | nil => rfl
    | cons b rest =>
      rcases eq_or_ne b type with rfl | hb
      · simp [hdecode]
      · simp [hb]

end names

theorem get_one_iff (hw : w.faults = Faults.none) (k : Bytes) :
    (get k w).1.1 = 1 ↔ k ∈ (w.ldb.region [DataType.KV]).keys := by
  have hget : (w.ldb.region [DataType.KV]).get k = w.ldb.table.get (encodeKvKey k) := get_region _ _ _
  rw [OrdMap.mem_keys_iff, hget, get, getRecord_apply _ (congrArg Faults.get hw), LevelDB.readRecord]
  cases w.ldb.table.get (encodeKvKey k) <;> simp

end SSDBImpl
