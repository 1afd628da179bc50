import Ssdb.Api.Extension
import Ssdb.Theory.Isolation
import Ssdb.Theory.Pages
import Ssdb.Theory.ScoreRanges
import Ssdb.Theory.Tidy

namespace SSDBImpl
open Binlogs

def hclearLoop (name : Bytes) (s : ℕ × SSDBImpl) : (ℕ × SSDBImpl) ⊕ (Int × SSDBImpl) :=
  let it := hscan name [] [] 1000 s.2
  match hclearRound name BinlogType.SYNC it.1.rest 0 it.2 with
  | (none, w) => .inr (0, w)
  | (some 0, w) => .inr (s.1, w)
  | (some (num + 1), w) => .inl (s.1 + (num + 1), w)

def flushdbLoop (w : SSDBImpl) : SSDBImpl ⊕ (Int × SSDBImpl) :=
  let es := w.ldb.table.entries
  match flushRound (es.take 10000) w with
  | (true, w) => if es.length < 10000 then .inr (0, w) else .inl w
  | (false, w) => .inr (-1, w)

def delRangeLoop (last : UInt64) (s : UInt64 × SSDBImpl) :
    (UInt64 × SSDBImpl) ⊕ (Int × SSDBImpl) :=
  if s.1 ≤ last then
    let (batch, next) := delBatch last 1000 s.1
    match LevelDB.Write batch s.2 with
    | (true, w) => .inl (next, w)
    | (false, w) => .inr (-1, w)
  else .inr (0, s.2)

end SSDBImpl

namespace HashTable
open Keys SSDBImpl

variable {w : SSDBImpl} {H : HashTable} {n : Bytes} {counted : Prop}

theorem hclearFrom_round (fuel : ℕ) (s : ℕ × SSDBImpl) : hclearFrom n (fuel + 1) s.1 s.2 =
    (hclearLoop n s).elim (fun s => hclearFrom n fuel s.1 s.2) id := by
  simp only [hclearFrom, M.bind_apply, hclearLoop]
  rcases hclearRound n BinlogType.SYNC _ 0 _ with ⟨_ | _ | num, w⟩ <;> rfl

theorem hclearLoop_spec (h : Holds counted w H) (hw : w.faults = Faults.none) (count : ℕ) :
    (H n).size = 0 ∧ hclearLoop n (count, w) = .inr (count, w) ∨
      ∃ num w', hclearLoop n (count, w) = .inl (count + (num + 1), w') ∧
        w'.faults = Faults.none ∧ Cleared counted H n ((H n).entries.drop 1000) w' ∧
          (H n).size ≠ 0 := by
  have hrest := hscan_rest (n := n) h.fields 1000
  have hlimit : UInt64.toNat 1000 = 1000 := by decide
  have hstate : (hscan n [] [] 1000 w).2 = w := rfl
  have hlen : ((H n).entries.take 1000).length = min 1000 (H n).size := List.length_take
  rw [hlimit] at hrest
  obtain ⟨hget, hwrite, hround⟩ := hclearRound_cleared (t := BinlogType.SYNC) _ _ 0 h
    (by rw [hw]; rfl) (List.take_append_drop 1000 (H n).entries).symm
  have hquiet : w.faults.write = [] := by rw [hw]; rfl
  rw [hquiet, List.suffix_nil] at hwrite
  simp only [hclearLoop, hrest, hstate]
  rcases hround with ⟨hnum, hcleared⟩ | ⟨-, hstuck, -⟩
  · by_cases h0 : (H n).size = 0
    · have hnil : (H n).entries = [] := List.length_eq_zero_iff.mp h0
      refine .inl ⟨h0, ?_⟩
      rw [hnil]
      rfl
    · obtain ⟨num, hpos⟩ := Nat.exists_eq_succ_of_ne_zero (show min 1000 (H n).size ≠ 0 by omega)
      rw [hlen, hpos, Nat.zero_add] at hnum
      generalize hclearRound n BinlogType.SYNC ((H n).entries.take 1000) 0 w = s at *
      obtain ⟨r, w'⟩ := s
      obtain rfl : r = some (num + 1) := hnum
      have hfaults : w'.faults = Faults.none := by
        obtain ⟨ldb, binlogs, g, f⟩ := w'
        exact congrArg₂ Faults.mk hget hwrite
      exact .inr ⟨num, w', rfl, hfaults, hcleared, h0⟩
  · rw [hquiet] at hstuck
    exact absurd hstuck List.not_mem_nil

def Clearable (counted : Prop) (s : ℕ × SSDBImpl) : Prop :=
  s.2.faults = Faults.none ∧ ∃ H, Holds counted s.2 H

theorem hclearLoop_next {s s' : ℕ × SSDBImpl} (hs : Clearable counted s)
    (hbody : hclearLoop n s = .inl s') : Clearable counted s' ∧
      (s'.2.ldb.region (encodeHashKey n [])).size < (s.2.ldb.region (encodeHashKey n [])).size := by
  obtain ⟨count, v⟩ := s
  obtain ⟨hv, H, h⟩ := hs
  rcases hclearLoop_spec h hv count with ⟨-, hstop⟩ | ⟨num, v', hnext, hv', ⟨H', hH', hleft, -⟩, hne⟩
  · exact absurd (hstop.symm.trans hbody) (by simp)
  · obtain rfl := Sum.inl.inj (hnext.symm.trans hbody)
    refine ⟨⟨hv', H', hH'⟩, ?_⟩
    rw [region_fields h.fields, region_fields hH'.fields, OrdMap.size, hleft, List.length_drop]
    exact Nat.sub_lt (Nat.pos_of_ne_zero hne) (by decide)

theorem hclearLoop_stop {s : ℕ × SSDBImpl} {r : Int × SSDBImpl} (hs : Clearable counted s)
    (hbody : hclearLoop n s = .inr r) : r = ((s.1 : Int), s.2) := by
  obtain ⟨count, v⟩ := s
  obtain ⟨hv, H, h⟩ := hs
  rcases hclearLoop_spec h hv count with ⟨-, hstop⟩ | ⟨_, _, hnext, -⟩
  · exact Sum.inr.inj (hbody.symm.trans hstop)
  · exact absurd (hnext.symm.trans hbody) (by simp)

theorem hclearFrom_exits (fuel : ℕ) {s : ℕ × SSDBImpl} (hs : Clearable counted s)
    (hfuel : (s.2.ldb.region (encodeHashKey n [])).size ≤ fuel) :
    Loop.Exits (hclearLoop n) s (hclearFrom n fuel s.1 s.2) := by
  have hzero : ∀ s : ℕ × SSDBImpl, Clearable counted s →
      (s.2.ldb.region (encodeHashKey n [])).size = 0 →
        hclearLoop n s = .inr (hclearFrom n 0 s.1 s.2) := by
    rintro ⟨count, v⟩ ⟨hv, H, h⟩ hzero
    rw [region_fields h.fields] at hzero
    rcases hclearLoop_spec h hv count with ⟨-, hstop⟩ | ⟨_, _, -, -, -, hne⟩
    · exact hstop
    · exact absurd hzero hne
  let f : ℕ → ℕ × SSDBImpl → Int × SSDBImpl := fun fuel s => hclearFrom n fuel s.1 s.2
  have hround : ∀ fuel s, f (fuel + 1) s = (hclearLoop n s).elim (f fuel) id := hclearFrom_round
  exact Loop.exits_fuel hround hzero (fun _ _ => hclearLoop_next) fuel hs hfuel

theorem hclear_exits (h : Holds counted w H) (hw : w.faults = Faults.none) :
    Loop.Exits (hclearLoop n) (0, w) (hclear n w) := by
  have hsize := size_le_table h.fields n
  have hcovered : (w.ldb.region (encodeHashKey n [])).size ≤ w.ldb.table.size + 1 := by
    rw [region_fields h.fields]
    omega
  have hstart : Clearable counted ((0, w) : ℕ × SSDBImpl) := ⟨hw, H, h⟩
  have hrun : hclear n w = hclearFrom n (w.ldb.table.size + 1) 0 w := rfl
  rw [hrun]
  exact hclearFrom_exits (w.ldb.table.size + 1) hstart hcovered

theorem hclear_faults (h : Holds counted w H) (hw : w.faults = Faults.none) :
    (hclear n w).2.faults = Faults.none :=
  (hclear_exits h hw).result (P := Clearable counted) (Q := fun r => r.2.faults = Faults.none)
    ⟨hw, H, h⟩ (fun _ _ hs hbody => (hclearLoop_next hs hbody).1) fun s r hs hbody => by
      rw [hclearLoop_stop hs hbody]
      exact hs.1

end HashTable

theorem Call.exec_others {α : Type} {c : Call} {f : α → Reply} {x : M α} (hrun : c.run = f <$> x)
    {C D : Container} (hc : c.container = some C) (hD : C.Apart D) {w : SSDBImpl}
    (hw : w.faults = Faults.none) {key : Bytes} (hkey : D.Sees key) :
    (x w).2.ldb.table.get key = w.ldb.table.get key := by
  rw [← Call.exec_ldb hrun hw]
  exact Call.exec_apart hc hD .none w hkey

structure HashCleared (n : Bytes) (w : SSDBImpl) (r : Int × SSDBImpl) : Prop where
  exits : Loop.Exits (SSDBImpl.hclearLoop n) (0, w) r
  count : ∃ fields : Finset Bytes, (∀ key, key ∈ fields ↔ (SSDBImpl.hget n key w).1.1 = 1) ∧
    r.1 = fields.card
  size : r.2.ldb.sequence ≤ kMaxSequenceNumber → (SSDBImpl.hsize n r.2).1 = 0
  fields : ∀ key, (SSDBImpl.hget n key r.2).1 = (0, none)
  scans : ∀ start stop limit, (SSDBImpl.hscan n start stop limit r.2).1.rest = []
  others : ∀ D key, (Container.hash n).Apart D → D.Sees key →
    r.2.ldb.table.get key = w.ldb.table.get key

namespace Tidy
open Keys SSDBImpl

variable {w : SSDBImpl} {n : Bytes}

theorem hclear_others (hw : w.faults = Faults.none) {D : Container} (hD : (Container.hash n).Apart D)
    {key : Bytes} (hkey : D.Sees key) :
    (hclear n w).2.ldb.table.get key = w.ldb.table.get key := by
  have hldb : ((Call.hclear n).exec .none w).2.ldb = (hclear n w).2.ldb := Call.exec_ldb rfl hw
  rw [← hldb]
  refine Call.exec_untouched (fun _ => Container.sees_data) (fun r hr => ?_) .none w hkey
  cases r with
  | put key value => exact Container.apart_sees hD hr.1
  | delete key => exact Container.apart_sees hD hr
  | log type cmd key => trivial

theorem hclear_cleared (h : Tidy w) (n : Bytes) : HashCleared n w (hclear n w) := by
  obtain ⟨H, hH⟩ := h.hashes
  have hget : w.faults.get = [] := by rw [h.faults]; rfl
  rcases HashTable.hclear_cleared (n := n) hH hget with ⟨hret, H', hH', hnil, -⟩ | ⟨-, hstuck, -⟩
  · have hfaults := HashTable.hclear_faults (n := n) hH h.faults
    have hempty : H' n = OrdMap.empty := OrdMap.ext_get fun key => by rw [OrdMap.get, hnil]; rfl
    refine ⟨HashTable.hclear_exits hH h.faults, ⟨(H n).keys.toFinset, fun key => ?_, ?_⟩,
      fun hseq => ?_, fun key => ?_, fun start stop limit => ?_, fun D key hD hkey =>
        hclear_others h.faults hD hkey⟩
    · rw [List.mem_toFinset, OrdMap.mem_keys_iff, HashTable.hget_one_iff hH.fields h.faults]
    · rw [hret, OrdMap.size_eq_card]
    · have hnone : (hclear n w).2.ldb.table.get (encodeHsizeKey n) = none := by
        rw [← LevelDB.data_eq (HashTable.hsizeKey_data n), hH'.sizes trivial hseq n, hempty]
        rfl
      rw [hsize, getCount_apply _ (by rw [hfaults]; rfl), ScoredSet.readCount_none hnone]
    · rw [HashTable.hget_reply hH'.fields hfaults, hempty]
      rfl
    · rw [HashTable.hscan_fields hH'.fields, hnil, List.filter_nil, List.take_nil]
  · rw [h.faults] at hstuck
    exact absurd hstuck List.not_mem_nil

end Tidy

namespace ScoredSet
open Keys SSDBImpl Strings

variable {w : SSDBImpl} {Z : ScoredSet} {n k : Bytes}

def dropItem (n : Bytes) (w : SSDBImpl) (e : Bytes × Bytes) : SSDBImpl :=
  if e.1.length ≠ 0 ∧ e.2.length ≠ 0 then (zdel n e.1 BinlogType.SYNC w).2 else w

theorem zClear_exits (n : Bytes) (s : ZIterator × SSDBImpl) : Loop.Exits (SSDB.zClearRound n) s
    (s.1.rest.foldl (dropItem n) (dropItem n s.2 (s.1.key, s.1.score))) := by
  refine Loop.exits_fold (fun s : ZIterator × SSDBImpl => dropItem n s.2 (s.1.key, s.1.score))
    (fun s => s.1.rest) (fun s hnil => ?_) (fun s a l hcons => ?_) s
  · obtain ⟨z, w⟩ := s
    rcases z.next_rest with ⟨-, hnext⟩ | ⟨a, l, z', hrest, -⟩
    · rcases hz : z.next with ⟨more, z'⟩
      rw [hz] at hnext
      obtain rfl : more = false := hnext
      simp only [SSDB.zClearRound, hz, dropItem]
    · exact absurd (hrest.symm.trans hnil) (by simp)
  · obtain ⟨z, w⟩ := s
    rcases z.next_rest with ⟨hrest, -⟩ | ⟨a', l', z', hrest, hnext, hitem, hleft⟩
    · exact absurd (hrest.symm.trans hcons) (by simp)
    · obtain ⟨rfl, rfl⟩ := List.cons.inj (hrest.symm.trans hcons)
      refine ⟨(z', dropItem n w (z.key, z.score)), ?_, ?_, hleft⟩
      · simp only [SSDB.zClearRound, hnext, dropItem]
      · rw [hitem]

theorem remove_size_le (Z : ScoredSet) (n k m : Bytes) : ((Z.remove n k) m).size ≤ (Z m).size := by
  rw [remove]
  rcases eq_or_ne m n with rfl | hm
  · rw [size_assign_none]
    split_ifs
    · exact le_rfl
    · exact Nat.sub_le _ _
  · rw [assign_other hm]

theorem zdel_others (hw : w.faults = Faults.none) {D : Container} (hD : (Container.zset n).Apart D)
    {key : Bytes} (hkey : D.Sees key) :
    (zdel n k BinlogType.SYNC w).2.ldb.table.get key = w.ldb.table.get key := by
  exact Call.exec_others (c := .zdel n k BinlogType.SYNC) rfl rfl hD hw hkey

structure Thinned (n : Bytes) (w : SSDBImpl) (Z : ScoredSet) (l : List (Bytes × Bytes))
    (w' : SSDBImpl) : Prop where
  faults : w'.faults = Faults.none
  left : ∃ Z', Indexed w'.ldb.data Z' ∧ AtMost w'.ldb Z' ∧ ∀ k, (Z' n).get k ≠ none →
    (Z n).get k ≠ none ∧ ∀ e ∈ l, e.2 ≠ [] → e.1 ≠ k
  others : ∀ D key, (Container.zset n).Apart D → D.Sees key →
    w'.ldb.table.get key = w.ldb.table.get key

theorem thinned_fold (l : List (Bytes × Bytes)) (hI : Indexed w.ldb.data Z)
    (hw : w.faults = Faults.none) (hb : ∀ m, (Z m).size + 1 < 2 ^ 63) (hA : AtMost w.ldb Z) :
    Thinned n w Z l (l.foldl (dropItem n) w) := by
  induction l generalizing w Z with
  | nil => exact ⟨hw, ⟨Z, hI, hA, fun k hk => ⟨hk, by simp⟩⟩, fun _ _ _ _ => rfl⟩
  | cons e l ih =>
    rw [List.foldl_cons, dropItem]
    split_ifs with hitem
    · have hget : w.faults.get = [] := by rw [hw]; rfl
      have hI' := (zdel_result (n := n) (k := e.1) (t := BinlogType.SYNC) hI hget
        (by simp [hw, Faults.none])).index
      have hA' := zdel_atMost (n := n) (k := e.1) (t := BinlogType.SYNC) hI hw hb hA
      have hb' (m : Bytes) : ((Z.remove n e.1) m).size + 1 < 2 ^ 63 :=
        lt_of_le_of_lt (Nat.add_le_add_right (Z.remove_size_le n e.1 m) 1) (hb m)
      obtain ⟨hfaults, ⟨Z', hindex, hmost, hleft⟩, hothers⟩ := ih hI' (zdel_faults hw) hb' hA'
      refine ⟨hfaults, ⟨Z', hindex, hmost, fun k hk => ?_⟩, fun D key hD hkey => ?_⟩
      · obtain ⟨hstill, hrest⟩ := hleft k hk
        rw [remove, get_assign] at hstill
        split_ifs at hstill with hsame
        · exact absurd rfl hstill
        · refine ⟨hstill, fun e' he' hscore => ?_⟩
          rcases List.mem_cons.mp he' with rfl | he'
          · exact fun heq => hsame ⟨rfl, heq.symm⟩
          · exact hrest e' he' hscore
      · rw [hothers D key hD hkey, zdel_others hw hD hkey]
    · obtain ⟨hfaults, ⟨Z', hindex, hmost, hleft⟩, hothers⟩ := ih hI hw hb hA
      refine ⟨hfaults, ⟨Z', hindex, hmost, fun k hk => ?_⟩, hothers⟩
      obtain ⟨hstill, hrest⟩ := hleft k hk
      refine ⟨hstill, fun e' he' hscore => ?_⟩
      rcases List.mem_cons.mp he' with rfl | he'
      · rintro rfl
        have hkey := (hI.admitted n e'.1 hstill).2.1
        exact hitem ⟨mt List.length_eq_zero_iff.mp hkey, mt List.length_eq_zero_iff.mp hscore⟩
      · exact hrest e' he' hscore

end ScoredSet

structure SetCleared (n : Bytes) (w w' : SSDBImpl) : Prop where
  size : (SSDBImpl.zsize n w').1 = 0
  members : ∀ key, (SSDBImpl.zget n key w').1 = (0, none)
  scans : n.length ≤ Keys.SSDB_KEY_LEN_MAX → ∀ key scoreStart scoreEnd limit,
    (SSDBImpl.zscan n key scoreStart scoreEnd limit w').1.rest = []
  others : ∀ D key, (Container.zset n).Apart D → D.Sees key →
    w'.ldb.table.get key = w.ldb.table.get key

namespace Tidy
open Keys SSDBImpl Strings ScoredSet

variable {w : SSDBImpl} {n : Bytes} {Z : ScoredSet}

theorem zscan_whole (hI : Indexed w.ldb.data Z) (hseq : w.ldb.sequence ≤ kMaxSequenceNumber)
    {k : Bytes} {s : Int64} (hk : (Z n).get k = some s) (htext : k ≤ [255]) :
    (k, str s) ∈ (zscan n [] [] [] (-1) w).1.rest := by
  have ha := hI.admitted n k (by simp [hk])
  have hlimit : UInt64.toNat (-1) = 2 ^ 64 - 1 := by decide
  have hscan : (zscan n [] [] [] (-1) w).1 = ziterator w.ldb n [] [] [] (UInt64.toNat (-1)) .forward :=
    rfl
  have hlen : (upward (ranking (Z n))).length ≤ 2 ^ 64 - 1 := by
    have h1 := List.length_filter_le (fun i : Item => decide (⟨[], Int64.minValue⟩ < i ∧
      i ≤ ⟨[255], Int64.maxValue⟩)) (ranking (Z n))
    have h2 := hI.bound hseq n
    rw [ranking_length] at h1
    exact h1.trans (by omega)
  rw [hscan, ziterator_upward hI ha.2.2.1, hlimit, List.take_of_length_le hlen]
  refine List.mem_map.mpr ⟨⟨k, s⟩, List.mem_filter.mpr ⟨(mem_ranking _ _).mpr hk, ?_⟩, rfl⟩
  refine decide_eq_true ⟨above_min ha.2.1, ?_⟩
  have hlast := le_lastKey_iff (i := ⟨k, s⟩) (e := Int64.maxValue) (le_maxValue s)
  exact hlast.mpr fun h => absurd htext (not_le.mpr h.2)

theorem zscan_none (hI : Indexed w.ldb.data Z) (hget : w.faults.get = []) (hn : n.length ≤ SSDB_KEY_LEN_MAX)
    (hnone : Z n = OrdMap.empty) (key scoreStart scoreEnd : Bytes) (limit : UInt64) :
    (zscan n key scoreStart scoreEnd limit w).1.rest = [] := by
  have hranking : ranking (Z n) = [] := by
    rw [← List.length_eq_zero_iff, ranking_length, hnone]
    rfl
  have hrest (a b : Item) (limit : ℕ) :
      (ZIterator.new (w.ldb.iterator (itemKey n a) (itemKey n b) limit) n).rest = [] := by
    rw [forward_rest hI hn, hranking]
    simp
  rw [zscan, M.bind_apply, startScore_apply hget]
  simp only [M.bind_apply, M.get_apply, M.pure_apply, ziterator, textKey]
  split_ifs <;> exact hrest _ _ _

theorem zClear_cleared (h : Tidy w) (hseq : w.ldb.sequence ≤ kMaxSequenceNumber) (n : Bytes)
    (htexts : ∀ key, (zget n key w).1.1 = 1 → ∃ text, key = utf8 text) :
    SetCleared n w ((zscan n [] [] [] (-1) w).1.rest.foldl (dropItem n) w) := by
  obtain ⟨Z, hI, hA⟩ := h.zsets hseq
  have hget : w.faults.get = [] := by rw [h.faults]; rfl
  obtain ⟨hfaults, ⟨Z', hI', hA', hleft⟩, hothers⟩ :=
    thinned_fold (n := n) (zscan n [] [] [] (-1) w).1.rest hI h.faults (hI.bound hseq) hA
  have hnone : Z' n = OrdMap.empty := OrdMap.ext_get fun k => by
    by_contra hk
    obtain ⟨hstill, hmet⟩ := hleft k hk
    obtain ⟨s, hs⟩ := Option.ne_none_iff_exists'.mp hstill
    obtain ⟨text, rfl⟩ := htexts k ((zget_one_iff hI hget n k).mpr hstill)
    exact hmet _ (zscan_whole hI hseq hs (utf8_lt text).le) (str_ne_nil s) rfl
  generalize (zscan n [] [] [] (-1) w).1.rest.foldl (dropItem n) w = w' at *
  have hget' : w'.faults.get = [] := by rw [hfaults]; rfl
  refine ⟨?_, fun key => ?_, fun hn key scoreStart scoreEnd limit =>
    zscan_none hI' hget' hn hnone key scoreStart scoreEnd limit, hothers⟩
  · have hmost := hA' n
    have hleast := readCount_toInt w'.ldb (encodeZsizeKey n)
    rw [hnone] at hmost
    rw [zsize, getCount_apply _ hget', ← Int64.toInt_inj, Int64.toInt_zero]
    exact le_antisymm hmost hleast
  · rw [zget_reply hI' hget', hnone]
    rfl

end Tidy

structure QueueCleared (n : Bytes) (w w' : SSDBImpl) : Prop where
  size : (SSDBImpl.qsize n w').1 = 0
  front : (SSDBImpl.qfront n w').1 = (0, none)
  back : (SSDBImpl.qback n w').1 = (0, none)
  items : ∀ seq, w'.ldb.table.get (Keys.encodeQitemKey n seq) = none
  others : ∀ D key, (Container.queue n).Apart D → D.Sees key →
    w'.ldb.table.get key = w.ldb.table.get key

namespace Queues
open Keys SSDBImpl

variable {w : SSDBImpl} {Q : Queues} {n : Bytes}

def popOnce (n : Bytes) (w : SSDBImpl) : SSDBImpl := (qpopFront n BinlogType.SYNC w).2

theorem compared {i : Int32} (hi : 0 ≤ i.toInt) : i.toInt64.toUInt64.toNat = i.toInt := by
  have hle : 0 ≤ i.toInt64 := by
    rwa [Int64.le_iff_toInt_le, Int64.toInt_zero, Int32.toInt_toInt64]
  rw [Int64.toNat_toUInt64_of_le hle, Int64.toNatClampNeg, Int32.toInt_toInt64]
  exact Int.toNat_of_nonneg hi

theorem qClear_exits (n : Bytes) (size : UInt64) (hsize : size.toNat < 2 ^ 31) (k : ℕ) {i : Int32}
    (hi : 0 ≤ i.toInt) (hk : i.toInt + k = size.toNat) (w : SSDBImpl) :
    Loop.Exits (SSDB.qClearRound n size) (i, w) ((popOnce n)^[k] w) := by
  induction k generalizing i w with
  | zero =>
    refine .stop ?_
    have hnot : ¬i.toInt64.toUInt64 < size := by
      have heq := compared hi
      rw [UInt64.lt_iff_toNat_lt]
      omega
    rw [SSDB.qClearRound, if_neg hnot]
    rfl
  | succ k ih =>
    have hless : i.toInt64.toUInt64 < size := by
      have heq := compared hi
      rw [UInt64.lt_iff_toNat_lt]
      omega
    have hnext : (i + 1).toInt = i.toInt + 1 := by
      rw [Int32.toInt_add]
      exact Int.bmod_eq_of_le (by simp; omega) (by simp; omega)
    have hround : SSDB.qClearRound n size (i, w) = .inl (i + 1, popOnce n w) := if_pos hless
    exact .next hround (ih (by omega) (by omega) _)

theorem qpop_others (hw : w.faults = Faults.none) {D : Container}
    (hD : (Container.queue n).Apart D) {key : Bytes} (hkey : D.Sees key) :
    (popOnce n w).ldb.table.get key = w.ldb.table.get key := by
  exact Call.exec_others (c := .qpopFront n BinlogType.SYNC) rfl rfl hD hw hkey

theorem qpop_faults (hw : w.faults = Faults.none) : (popOnce n w).faults = Faults.none :=
  qpop_quiet .front hw

theorem popOnce_iterate (k : ℕ) (h : Stores w.ldb.data Q) (hw : w.faults = Faults.none)
    (hk : (Q n).items.length = k) :
    ((popOnce n)^[k] w).faults = Faults.none ∧
      (∃ Q', Stores ((popOnce n)^[k] w).ldb.data Q' ∧ (Q' n).items = []) ∧
      ∀ D key, (Container.queue n).Apart D → D.Sees key →
        ((popOnce n)^[k] w).ldb.table.get key = w.ldb.table.get key := by
  induction k generalizing w Q with
  | zero => exact ⟨hw, ⟨Q, h, List.length_eq_zero_iff.mp hk⟩, fun _ _ _ _ => rfl⟩
  | succ k ih =>
    have hne : (Q n).items ≠ [] := fun hnil => by simp [hnil] at hk
    have hpop := (qpop_result (n := n) (t := BinlogType.SYNC) .front h hw).stores
    rw [afterPop, if_neg hne] at hpop
    have hlen : ((Function.update Q n ((Q n).pop .front)) n).items.length = k := by
      rw [Function.update_self, Deque.pop_length, hk]
      rfl
    obtain ⟨hfaults, hstores, hothers⟩ := ih (w := popOnce n w) hpop (qpop_faults hw) hlen
    rw [Function.iterate_succ_apply]
    exact ⟨hfaults, hstores, fun D key hD hkey =>
      (hothers D key hD hkey).trans (qpop_others hw hD hkey)⟩

theorem queueCleared {w' : SSDBImpl} (h : Stores w'.ldb.data Q) (hw : w'.faults = Faults.none)
    (hnil : (Q n).items = []) (hothers : ∀ D key, (Container.queue n).Apart D → D.Sees key →
      w'.ldb.table.get key = w.ldb.table.get key) : QueueCleared n w w' where
  size := by
    rw [(qsize_result h hw).reply, hnil]
    rfl
  front := by
    have hreply := (qpeek_result (n := n) .front h hw).reply
    rwa [peekReply, popReply, if_pos hnil] at hreply
  back := by
    have hreply := (qpeek_result (n := n) .back h hw).reply
    rwa [peekReply, popReply, if_pos hnil] at hreply
  items seq := by rw [qitem_get h, record_nil hnil]
  others := hothers

end Queues

structure Flushed (w : SSDBImpl) (r : Int × SSDBImpl) : Prop where
  wipes : ∃ s, Loop.Exits SSDBImpl.flushdbLoop { w with binlogs := w.binlogs.begin } s ∧
    r.1 = s.1 ∧ ∃ v, v = { s.2 with binlogs := s.2.binlogs.rollback } ∧
      ∃ ret, Loop.Exits (SSDBImpl.delRangeLoop v.binlogs.lastSeq) (v.binlogs.minSeq, v) (ret, r.2)
  ret : r.1 = 0
  empty : r.2.ldb.table.entries = []

namespace SSDBImpl
open Binlogs

variable {w : SSDBImpl}

theorem flushdbFrom_round (fuel : ℕ) (w : SSDBImpl) : flushdbFrom (fuel + 1) w =
    (flushdbLoop w).elim (flushdbFrom fuel) id := by
  rw [flushdbFrom_succ, M.bind_apply, flushdbLoop]
  rcases flushRound (w.ldb.table.entries.take 10000) w with ⟨_ | _, w'⟩
  · rfl
  · by_cases hlen : w.ldb.table.entries.length < 10000
    · simp only [if_true, if_pos hlen]
      rfl
    · simp only [if_true, if_neg hlen]
      rfl

theorem flushdbLoop_spec (hw : w.faults.write = []) : ∃ w', w'.faults.write = [] ∧
    (w.ldb.table.size < 10000 ∧ flushdbLoop w = .inr (0, w') ∨
      w'.ldb.table.size + 10000 = w.ldb.table.size ∧ flushdbLoop w = .inl w') := by
  obtain ⟨db, hround, hrest, -⟩ :=
    flushRound_spec (w.ldb.table.entries.take 10000) hw (List.take_append_drop _ _).symm
  refine ⟨{ w with ldb := db }, hw, ?_⟩
  have hsize : w.ldb.table.entries.length = w.ldb.table.size := rfl
  rw [flushdbLoop, hround]
  rcases lt_or_ge w.ldb.table.size 10000 with hlen | hlen
  · exact .inl ⟨hlen, if_pos hlen⟩
  · refine .inr ⟨?_, if_neg (not_lt.mpr hlen)⟩
    rw [OrdMap.size, hrest, List.length_drop, hsize]
    exact Nat.sub_add_cancel hlen

theorem flushdbFrom_exits (fuel : ℕ) (hw : w.faults.write = []) (hfuel : w.ldb.table.size ≤ fuel) :
    Loop.Exits flushdbLoop w (flushdbFrom fuel w) := by
  refine Loop.exits_fuel (P := fun w => w.faults.write = []) (m := fun w => w.ldb.table.size)
    flushdbFrom_round (fun w hw hzero => ?_) (fun w s' hw hbody => ?_) fuel hw hfuel
  · have hnil : w.ldb.table.entries = [] := List.length_eq_zero_iff.mp hzero
    rw [flushdbLoop, hnil]
    rfl
  · obtain ⟨w', hw', ⟨-, hstop⟩ | ⟨hsize, hnext⟩⟩ := flushdbLoop_spec hw
    · exact absurd (hstop.symm.trans hbody) (by simp)
    · obtain rfl := Sum.inl.inj (hnext.symm.trans hbody)
      exact ⟨hw', by omega⟩

theorem flushdbFrom_ret (fuel : ℕ) (hw : w.faults.write = []) : (flushdbFrom fuel w).1 = 0 := by
  induction fuel generalizing w with
  | zero => rfl
  | succ fuel ih =>
    obtain ⟨w', hw', ⟨-, hstop⟩ | ⟨-, hnext⟩⟩ := flushdbLoop_spec hw
    · rw [flushdbFrom_round, hstop]
      rfl
    · rw [flushdbFrom_round, hnext]
      exact ih hw'

theorem delRangeFrom_round (last : UInt64) (fuel : ℕ) (s : UInt64 × SSDBImpl) :
    delRangeFrom last (fuel + 1) s.1 s.2 =
      (delRangeLoop last s).elim (fun s => delRangeFrom last fuel s.1 s.2) id := by
  rw [delRangeFrom, delRangeLoop]
  by_cases hle : s.1 ≤ last
  · simp only [if_pos hle, M.bind_apply]
    rcases LevelDB.Write (delBatch last 1000 s.1).1 s.2 with ⟨_ | _, w'⟩
    · rfl
    · rfl
  · rw [if_neg hle, if_neg hle]
    rfl

theorem delRangeFrom_exits {last : UInt64} (hlast : last.toNat + 1 < 2 ^ 64) (fuel : ℕ)
    {s : UInt64 × SSDBImpl} (hw : s.2.faults.write = []) (hfuel : last.toNat + 1 - s.1.toNat ≤ fuel) :
    Loop.Exits (delRangeLoop last) s (delRangeFrom last fuel s.1 s.2) := by
  let f : ℕ → UInt64 × SSDBImpl → Int × SSDBImpl := fun fuel s => delRangeFrom last fuel s.1 s.2
  have hround : ∀ fuel s, f (fuel + 1) s = (delRangeLoop last s).elim (f fuel) id :=
    delRangeFrom_round last
  refine Loop.exits_fuel (P := fun s => s.2.faults.write = [])
    (m := fun s => last.toNat + 1 - s.1.toNat) hround (fun s _ hzero => ?_) (fun s s' hw hbody => ?_)
    fuel hw hfuel
  · have hgt : ¬s.1 ≤ last := by
      rw [UInt64.le_iff_toNat_le]
      omega
    rw [delRangeLoop, if_neg hgt]
    rfl
  · rw [delRangeLoop] at hbody
    split_ifs at hbody with hle
    · rw [UInt64.le_iff_toNat_le] at hle
      have hstop := (delBatch_spec hlast 1000 (by omega : s.1.toNat ≤ last.toNat + 1) s.2.ldb.table).1
      rcases hbatch : delBatch last 1000 s.1 with ⟨batch, next⟩
      rw [hbatch] at hbody hstop
      dsimp only at hbody hstop
      rw [Write_apply _ hw] at hbody
      obtain rfl := Sum.inl.inj hbody
      refine ⟨hw, ?_⟩
      dsimp only
      omega

end SSDBImpl

namespace Tidy
open SSDBImpl Binlogs

variable {w : SSDBImpl}

theorem flushdb_flushed (h : Tidy w) (hseq : w.ldb.sequence ≤ kMaxSequenceNumber) :
    Flushed w (flushdb w) := by
  have hw : w.faults.write = [] := by rw [h.faults]; rfl
  obtain ⟨db, hwipe, -, -⟩ := wipe_spec hw
  generalize hs : flushdbFrom (w.ldb.table.size + 1) { w with binlogs := w.binlogs.begin } = s
  have hexits : Loop.Exits flushdbLoop { w with binlogs := w.binlogs.begin } s := by
    rw [← hs]
    exact flushdbFrom_exits _ hw (Nat.le_succ _)
  have hret : s.1 = 0 := by
    rw [← hs]
    exact flushdbFrom_ret _ hw
  have hafter : (wipe w).2 = { s.2 with binlogs := s.2.binlogs.rollback } := by
    rw [← hs]
    rfl
  generalize hv : ({ s.2 with binlogs := s.2.binlogs.rollback } : SSDBImpl) = v at hafter
  have hrun : flushdb w = (s.1, (Binlogs.flush v).2) := by
    rw [← hv, ← hs]
    rfl
  rw [hafter] at hwipe
  have hlast : v.binlogs.lastSeq.toNat + 1 < 2 ^ 64 := by
    have hbound := h.numbers.last.trans hseq
    rw [kMaxSequenceNumber] at hbound
    rw [hwipe]
    dsimp only
    omega
  have hquiet : v.faults.write = [] := by
    rw [hwipe]
    exact hw
  refine ⟨⟨s, hexits, ?_, v, hv.symm, (Binlogs.flush v).1, ?_⟩, ?_, flushdb_empty h.faults⟩
  · rw [hrun]
  · rw [hrun]
    exact delRangeFrom_exits hlast _ (s := (v.binlogs.minSeq, v)) hquiet le_rfl
  · rw [hrun, hret]

end Tidy

namespace SSDBImpl
open Call (after Contained)

theorem zClear_clears {w : SSDBImpl} (h : Tidy w) (hseq : w.ldb.sequence ≤ kMaxSequenceNumber)
    {aKey : Bytes} (htexts : ∀ key, (zget (cString aKey) key w).1.1 = 1 → ∃ text, key = utf8 text) :
    (∃ w', SSDB.zClear aKey w w') ∧
      ∀ w', SSDB.zClear aKey w w' → SetCleared (cString aKey) w w' := by
  have hexits := ScoredSet.zClear_exits (cString aKey) (zscan (cString aKey) [] [] [] (-1) w)
  have hstart : ScoredSet.dropItem (cString aKey) (zscan (cString aKey) [] [] [] (-1) w).2
      ((zscan (cString aKey) [] [] [] (-1) w).1.key,
        (zscan (cString aKey) [] [] [] (-1) w).1.score) = w := rfl
  rw [hstart] at hexits
  refine ⟨⟨_, hexits⟩, fun w' hw' => ?_⟩
  rw [Loop.Exits.unique hw' hexits]
  exact h.zClear_cleared hseq (cString aKey) htexts

theorem qClear_clears {w : SSDBImpl} (h : Tidy w) {aKey : Bytes}
    (hsize : (qsize (cString aKey) w).1.toInt < 2 ^ 31) :
    (∃ w', SSDB.qClear aKey w w') ∧
      ∀ w', SSDB.qClear aKey w w' → QueueCleared (cString aKey) w w' := by
  obtain ⟨Q, hQ⟩ := h.orderly.stores
  have hreply := (Queues.qsize_result (n := cString aKey) hQ h.faults).reply
  have hpair : SSDB.qSize aKey w = ((SSDB.qSize aKey w).1, w) := by
    rw [SSDB.qSize, qsize_apply _ (by rw [h.faults]; rfl)]
  have hlen := Queues.length_lt (Q (cString aKey))
  rw [hreply, Counter.ofNat_toInt hlen] at hsize
  have hcount : (SSDB.qSize aKey w).1.toUInt64.toNat = (Q (cString aKey)).items.length := by
    have hqsize : (SSDB.qSize aKey w).1 = Int64.ofNat (Q (cString aKey)).items.length := hreply
    have hle : (0 : Int64) ≤ Int64.ofNat (Q (cString aKey)).items.length :=
      ScoredSet.ofNat_nonneg hlen
    rw [hqsize, Int64.toNat_toUInt64_of_le hle, Int64.toNatClampNeg, Counter.ofNat_toInt hlen]
    rfl
  have hexits := Queues.qClear_exits (cString aKey) (SSDB.qSize aKey w).1.toUInt64 (by omega)
    (Q (cString aKey)).items.length (i := 0) le_rfl (by rw [hcount]; simp) w
  obtain ⟨hfaults, ⟨Q', hQ', hnil⟩, hothers⟩ :=
    Queues.popOnce_iterate (n := cString aKey) _ hQ h.faults rfl
  have hclear : SSDB.qClear aKey w
      ((Queues.popOnce (cString aKey))^[(Q (cString aKey)).items.length] w) := by
    rw [SSDB.qClear, hpair]
    exact hexits
  refine ⟨⟨_, hclear⟩, fun w' hw' => ?_⟩
  rw [Loop.Exits.unique hw' hclear]
  exact Queues.queueCleared hQ' hfaults hnil hothers

/-- After a run in which every write by number stays inside its queue: `hclear`, `zClear:` of keys
that are texts, `qClear:` of a queue an `int` can count, and `flushdb` return, have emptied what
they were to, and have changed no other container. -/
theorem clears_only_its_target (enabled : Bool) (capacity : Int32) (cs : List Call)
    (hcs : Contained cs (fresh enabled capacity)) :
    let w := after cs (fresh enabled capacity)
    w.ldb.sequence ≤ kMaxSequenceNumber →
      (∀ name, HashCleared name w (hclear name w)) ∧
        (∀ aKey, (∀ key, (zget (cString aKey) key w).1.1 = 1 → ∃ text, key = utf8 text) →
          (∃ w', SSDB.zClear aKey w w') ∧
            ∀ w', SSDB.zClear aKey w w' → SetCleared (cString aKey) w w') ∧
        (∀ aKey, (qsize (cString aKey) w).1.toInt < 2 ^ 31 →
          (∃ w', SSDB.qClear aKey w w') ∧
            ∀ w', SSDB.qClear aKey w w' → QueueCleared (cString aKey) w w') ∧
        Flushed w (flushdb w) := by
  intro w hseq
  have htidy : Tidy w := Call.after_tidy hcs
  exact ⟨htidy.hclear_cleared, fun aKey htexts => zClear_clears htidy hseq htexts,
    fun aKey hsize => qClear_clears htidy hsize, htidy.flushdb_flushed hseq⟩

theorem clears_only_its_target_pushed :
    let w := after [.hset [104] [97] [49] 1, .qpushBack [113] [97] 1] (fresh true 1000)
    (hclear [104] w).1 = 1 ∧ Flushed w (flushdb w) := by
  intro w
  have hinside : Contained [.hset [104] [97] [49] 1, .qpushBack [113] [97] 1] (fresh true 1000) :=
    ⟨fun _ _ _ _ h => Call.noConfusion h, fun _ _ _ _ h => Call.noConfusion h, trivial⟩
  exact ⟨by decide +kernel, (clears_only_its_target true 1000
    [.hset [104] [97] [49] 1, .qpushBack [113] [97] 1] hinside (by decide +kernel)).2.2.2⟩

theorem item_past_the_end_stays :
    let w := after [.qpushBack [113] [97] 1, .qpushBack [113] [98] 1,
      .qsetBySeq [113] (QITEM_SEQ_INIT + 2) [120] 1, .qpopBack [113] 1, .qfix [113]] (fresh true 1000)
    (qsize [113] w).1 = 2 ∧ (∃ w', SSDB.qClear [113] w w') ∧
      ∀ w', SSDB.qClear [113] w w' → (qsize [113] w').1 = 1 := by
  intro w
  have hsize : SSDB.qSize [113] w = (2, w) := by
    have hreply : (qsize [113] w).1 = 2 := by decide +kernel
    exact (qsize_apply [113] rfl).trans (congrArg (·, w) ((congrArg Prod.fst
      (qsize_apply (w := w) [113] rfl)).symm.trans hreply))
  have hexits : SSDB.qClear [113] w ((Queues.popOnce [113])^[2] w) := by
    rw [SSDB.qClear, hsize]
    exact Queues.qClear_exits [113] 2 (by decide) 2 (by decide) (by decide) w
  refine ⟨congrArg Prod.fst hsize, ⟨_, hexits⟩, fun w' hw' => ?_⟩
  rw [Loop.Exits.unique hw' hexits]
  decide +kernel

end SSDBImpl
