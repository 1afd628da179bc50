import Ssdb.Theory.Places

namespace Queues
open Keys SSDBImpl Endian
open Call (execAll)

variable {w : SSDBImpl} {Q : Queues} {n : Bytes} {q : NumberedQueue}

theorem run_length_le (h : Stores w.ldb.data Q) {s m : ℕ} (hm : s + m ≤ 2 ^ 64)
    (hrun : ∀ k < m, record (Q n) (s + k) ≠ none) : m ≤ w.ldb.table.size := by
  have hnodup : ((List.range m).map fun k => encodeQitemKey n (UInt64.ofNat (s + k))).Nodup := by
    refine List.Nodup.map_on (fun k hk l hl heq => ?_) List.nodup_range
    have hk' := List.mem_range.mp hk
    have hl' := List.mem_range.mp hl
    have hseq := congrArg UInt64.toNat (qitemKey_eq_iff.mp heq).2
    rw [ofNat_toNat (by omega), ofNat_toNat (by omega)] at hseq
    omega
  have hsub : ((List.range m).map fun k => encodeQitemKey n (UInt64.ofNat (s + k))) ⊆
      w.ldb.table.keys := by
    intro key hkey
    obtain ⟨k, hk, rfl⟩ := List.mem_map.mp hkey
    have hk' := List.mem_range.mp hk
    rw [OrdMap.mem_keys_iff, qitem_get h, ofNat_toNat (by omega)]
    exact hrun k hk'
  have hlen := (List.subperm_of_subset hnodup hsub).length_le
  rwa [List.length_map, List.length_range, OrdMap.keys, List.length_map] at hlen

theorem qsliceFrom_run (h : Stores w.ldb.data Q) (hw : w.faults = Faults.none) (seqEnd : UInt64)
    (xs : List Bytes) {fuel : ℕ} (seq : UInt64) (list : List Bytes) (hfuel : xs.length < fuel)
    (hwrap : seq.toNat + xs.length < 2 ^ 64)
    (hrun : ∀ k < xs.length, seq.toNat + k ≤ seqEnd.toNat ∧ record (Q n) (seq.toNat + k) = xs[k]?)
    (hstop : seqEnd.toNat < seq.toNat + xs.length ∨ record (Q n) (seq.toNat + xs.length) = none) :
    qsliceFrom n seqEnd fuel seq list w = ((0, list ++ xs), w) := by
  have hget : w.faults.get = [] := by rw [hw]; rfl
  induction xs generalizing fuel seq list with
  | nil =>
    obtain ⟨fuel, rfl⟩ := Nat.exists_eq_succ_of_ne_zero (Nat.pos_iff_ne_zero.mp hfuel)
    rw [qsliceFrom, List.append_nil]
    simp only [M.ite_apply]
    split_ifs with hle
    · have hnone : record (Q n) seq.toNat = none :=
        hstop.resolve_left (not_lt.mpr (UInt64.le_iff_toNat_le.mp hle))
      rw [M.bind_apply, qgetBySeq, getRecord_apply _ hget, LevelDB.readRecord, qitem_get h, hnone]
      rfl
    · rfl
  | cons x xs ih =>
    obtain ⟨fuel, rfl⟩ := Nat.exists_eq_succ_of_ne_zero (Nat.pos_iff_ne_zero.mp (Nat.zero_lt_of_lt hfuel))
    rw [List.length_cons] at hfuel hwrap hrun hstop
    obtain ⟨hle, hx⟩ := hrun 0 (by omega)
    have hsucc : (seq + 1).toNat = seq.toNat + 1 := by
      rw [UInt64.toNat_add]
      exact Nat.mod_eq_of_lt (by change _ + 1 < _; omega)
    have hrest := @ih fuel (seq + 1) (list ++ [x]) (by omega)
      (by omega) (fun k hk => by
        have hnext := hrun (k + 1) (by omega)
        rw [hsucc, Nat.add_assoc, Nat.add_comm 1 k]
        exact hnext) (by
        rw [hsucc, Nat.add_assoc, Nat.add_comm 1 xs.length]
        exact hstop)
    rw [qsliceFrom]
    simp only [M.ite_apply]
    rw [if_pos (UInt64.le_iff_toNat_le.mpr hle), M.bind_apply, qgetBySeq, getRecord_apply _ hget,
      LevelDB.readRecord, qitem_get h]
    rw [Nat.add_zero] at hx
    rw [hx]
    simp only [M.ite_apply]
    rw [List.append_assoc] at hrest
    exact hrest

def seqAt (q : NumberedQueue) (i : Int) : ℕ := ((q.first + i) % 18446744073709551616).toNat

theorem seqAt_cases (hne : q.items ≠ []) {i : Int}
    (hi : -9223372036854775808 ≤ i ∧ i < 9223372036854775808) :
    0 ≤ q.first + i ∧ (seqAt q i : Int) = q.first + i ∨
      q.first + i < 0 ∧ (seqAt q i : Int) = q.first + i + 18446744073709551616 := by
  have hs := q.seated hne
  rw [seqAt]
  omega

theorem qsliceBounds_apply (h : Stores w.ldb.data Q) (hw : w.faults = Faults.none)
    (hne : (Q n).items ≠ []) (first last : Int64) :
    qsliceBounds n first last w =
      ((1, UInt64.ofNat (seqAt (Q n) ((Q n).position first.toInt)),
        UInt64.ofNat (seqAt (Q n) ((Q n).position last.toInt))), w) := by
  have hget : w.faults.get = [] := by rw [hw]; rfl
  have hfront : qgetUint64 n QFRONT_SEQ w = ((1, UInt64.ofNat ((Q n).number .front)), w) := by
    rw [qgetUint64_apply _ _ hget]
    exact congrArg (·, w) (readSeq_number h .front hne)
  have hback : qgetUint64 n QBACK_SEQ w = ((1, UInt64.ofNat ((Q n).number .back)), w) := by
    rw [qgetUint64_apply _ _ hget]
    exact congrArg (·, w) (readSeq_number h .back hne)
  have heq {s : UInt64} {i : Int} (hseq : (s.toNat : Int) = ((Q n).first + i) % 18446744073709551616) :
      s = UInt64.ofNat (seqAt (Q n) i) := by
    rw [seqAt, ← hseq, Int.toNat_natCast, UInt64.ofNat_toNat]
  have hfrom (i : Int64) (hi : i ≥ 0) := heq (front_seq hne ((nonneg_iff i).mp hi))
  have hbackFrom (i : Int64) (hi : ¬i ≥ 0) :=
    heq (back_seq hne (not_le.mp ((nonneg_iff i).not.mp hi)))
  have hlt (i : Int64) : i < 0 ↔ ¬i ≥ 0 := by simp
  rw [qsliceBounds]
  simp only [M.ite_apply, hlt]
  by_cases h1 : first ≥ 0 <;> by_cases h2 : last ≥ 0 <;>
    simp only [h1, h2, and_self, and_true, and_false, not_true, not_false_eq_true, if_true,
      if_false, M.bind_apply, hfront, hback, M.ite_apply, ne_eq, M.pure_apply] <;>
    first
      | rw [hfrom first h1, hfrom last h2]
      | rw [hfrom first h1, hbackFrom last h2]
      | rw [hbackFrom first h1, hfrom last h2]
      | rw [hbackFrom first h1, hbackFrom last h2]

theorem seqAt_lt (q : NumberedQueue) (i : Int) : seqAt q i < 2 ^ 64 := by
  rw [seqAt]
  omega

theorem qslice_nil (h : Stores w.ldb.data Q) (hw : w.faults = Faults.none)
    (hnil : (Q n).items = []) (first last : Int64) : (qslice n first last w).1 = (0, []) := by
  have hget : w.faults.get = [] := by rw [hw]; rfl
  have hfront : qgetUint64 n QFRONT_SEQ w = ((0, 0), w) := by
    rw [qgetUint64_apply _ _ hget]
    exact congrArg (·, w) (readSeq_nil h .front hnil)
  have hback : qgetUint64 n QBACK_SEQ w = ((0, 0), w) := by
    rw [qgetUint64_apply _ _ hget]
    exact congrArg (·, w) (readSeq_nil h .back hnil)
  have hbounds : (qsliceBounds n first last w).1.1 = 0 ∧ (qsliceBounds n first last w).2 = w := by
    rw [qsliceBounds]
    simp only [M.ite_apply, M.bind_apply, hfront, hback]
    split_ifs <;> exact ⟨rfl, rfl⟩
  rw [qslice, M.bind_apply]
  simp only [hbounds.1, hbounds.2, M.ite_apply]
  rfl

section reads
variable (h : Stores w.ldb.data Q) (hw : w.faults = Faults.none) (hne : (Q n).items ≠ [])
  (first last : Int64) {s e : ℕ} (hs : s = seqAt (Q n) ((Q n).position first.toInt))
  (he : e = seqAt (Q n) ((Q n).position last.toInt))
include h hw hne hs he

theorem qslice_run (xs : List Bytes) (hwrap : s + xs.length < 2 ^ 64)
    (hrun : ∀ k < xs.length, s + k ≤ e ∧ record (Q n) (s + k) = xs[k]?)
    (hstop : e < s + xs.length ∨ record (Q n) (s + xs.length) = none) :
    (qslice n first last w).1 = (0, xs) := by
  have hstart : (UInt64.ofNat s).toNat = s := ofNat_toNat (by omega)
  have hend : (UInt64.ofNat e).toNat = e := ofNat_toNat (he ▸ seqAt_lt _ _)
  have hsize : xs.length ≤ w.ldb.table.size := by
    refine run_length_le (n := n) (s := s) h hwrap.le fun k hk => ?_
    rw [(hrun k hk).2, List.getElem?_eq_getElem hk]
    simp
  have hloop := qsliceFrom_run (n := n) h hw (UInt64.ofNat e) xs (UInt64.ofNat s) []
    (Nat.lt_succ_of_le hsize) (by rw [hstart]; exact hwrap)
    (fun k hk => by rw [hstart, hend]; exact hrun k hk) (by rw [hstart, hend]; exact hstop)
  rw [qslice, M.bind_apply, qsliceBounds_apply h hw hne, ← hs, ← he]
  simp only [M.ite_apply, ne_eq, not_true, if_false]
  rw [M.bind_apply, M.get_apply]
  exact congrArg Prod.fst hloop

theorem qslice_missing (hnone : e < s ∨ record (Q n) s = none) :
    (qslice n first last w).1 = (0, []) :=
  qslice_run h hw hne first last hs he [] (hs ▸ seqAt_lt _ _)
    (fun k hk => absurd hk (Nat.not_lt_zero k)) hnone

theorem qslice_part (base : ℕ) (xs : List Bytes) (hbase : base ≤ s ∧ s ≤ base + xs.length)
    (hwrap : base + xs.length < 2 ^ 64)
    (hxs : ∀ k ≤ xs.length, record (Q n) (base + k) = xs[k]?) :
    (qslice n first last w).1 = (0, (xs.drop (s - base)).take (e + 1 - s)) := by
  have hlen : ((xs.drop (s - base)).take (e + 1 - s)).length =
      min (e + 1 - s) (xs.length - (s - base)) := by
    rw [List.length_take, List.length_drop]
  refine qslice_run h hw hne first last hs he _ (by omega) (fun k hk => ?_) ?_
  · rw [hlen] at hk
    have hsum : s + k = base + (s - base + k) := by omega
    refine ⟨by omega, ?_⟩
    rw [hsum, hxs _ (by omega), List.getElem?_take_of_lt (by omega), List.getElem?_drop]
  · rw [hlen]
    rcases le_or_gt (e + 1 - s) (xs.length - (s - base)) with hle | hgt
    · exact .inl (by omega)
    · right
      have hsum : s + min (e + 1 - s) (xs.length - (s - base)) = base + xs.length := by omega
      rw [hsum, hxs _ le_rfl, List.getElem?_eq_none le_rfl]

end reads

def between (xs : List Bytes) (i j : Int) : List Bytes := (xs.take (j + 1).toNat).drop i.toNat

def ends (q : NumberedQueue) : List Bytes :=
  [memory (UInt64.ofNat q.first), memory (UInt64.ofNat q.last)]

def Sliced (q : NumberedQueue) (i j : Int) : Prop :=
  q.items = [] ∨ 0 ≤ i ∧ (q.items.length ≤ i ∨ 0 ≤ j ∨ 0 ≤ q.first + j) ∨
    i < 0 ∧ if (q.first + i = 2 ∨ q.first + i = 3) ∧ (i ≤ j ∨ q.first + j < 0) then
        ((ends q).drop (seqAt q i - 2)).take (seqAt q j + 1 - seqAt q i) = between q.items i j
      else j < 0

theorem record_ends (hne : q.items ≠ []) : ∀ k ≤ (ends q).length, record q (2 + k) = (ends q)[k]? := by
  have hs := q.seated hne
  intro k hk
  have hk' : k ≤ 2 := hk
  interval_cases k
  · exact record_end hne .front
  · exact record_end hne .back
  · rw [record_item hne (by decide) (by decide)]
    exact q.itemAt_none (by omega)

theorem record_items (hne : q.items ≠ []) :
    ∀ k ≤ q.items.length, record q (q.first + k) = q.items[k]? := by
  have hs := q.seated hne
  intro k _
  rw [record_item hne (by omega) (by omega), q.itemAt_add]

theorem between_nil {xs : List Bytes} (hne : xs ≠ []) {i j : Int} (hi : i < 0) :
    between xs i j = [] ↔ j < 0 := by
  have hlen := List.length_pos_iff.mpr hne
  rw [between, Int.toNat_of_nonpos hi.le, List.drop_zero, List.take_eq_nil_iff]
  simp only [hne, or_false]
  omega

section sliced
variable (h : Stores w.ldb.data Q) (hw : w.faults = Faults.none) (hne : (Q n).items ≠ [])
  (first last : Int64)
include h hw hne

theorem qslice_after (hi : 0 ≤ (Q n).position first.toInt) :
    (qslice n first last w).1 =
        (0, between (Q n).items ((Q n).position first.toInt) ((Q n).position last.toInt)) ↔
      (Q n).items.length ≤ (Q n).position first.toInt ∨ 0 ≤ (Q n).position last.toInt ∨
        0 ≤ (Q n).first + (Q n).position last.toInt := by
  have hseated := (Q n).seated hne
  have hib := position_bounds (Q n) first
  have hjb := position_bounds (Q n) last
  have hs := seqAt_cases hne hib
  have he := seqAt_cases hne hjb
  generalize hip : (Q n).position first.toInt = i at *
  generalize hjp : (Q n).position last.toInt = j at *
  rcases le_or_gt ((Q n).items.length : Int) i with hout | hin
  · refine iff_of_true ?_ (.inl hout)
    rw [qslice_missing h hw hne first last rfl rfl, between, List.drop_eq_nil_of_le]
    · rw [List.length_take]
      omega
    · right
      rw [hip, record_item hne (by omega) (by omega)]
      exact (Q n).itemAt_none (by omega)
  · have hpart := qslice_part h hw hne first last rfl rfl (Q n).first (Q n).items
      (by rw [hip]; omega) (by omega) (record_items hne)
    have hdrop : seqAt (Q n) i - (Q n).first = i.toNat := by omega
    rw [hpart, hip, hjp, hdrop, between, List.drop_take]
    simp only [Prod.mk.injEq, true_and]
    rcases le_or_gt 0 ((Q n).first + j) with hfj | hfj
    · have htake : seqAt (Q n) j + 1 - seqAt (Q n) i = (j + 1).toNat - i.toNat := by omega
      rw [htake]
      exact iff_of_true rfl (.inr (.inr hfj))
    · have hnone : (j + 1).toNat - i.toNat = 0 := by omega
      rw [hnone, List.take_zero, List.take_of_length_le (by rw [List.length_drop]; omega),
        List.drop_eq_nil_iff]
      omega

theorem qslice_before (hi : (Q n).position first.toInt < 0) :
    (qslice n first last w).1 =
        (0, between (Q n).items ((Q n).position first.toInt) ((Q n).position last.toInt)) ↔
      Sliced (Q n) ((Q n).position first.toInt) ((Q n).position last.toInt) := by
  have hseated := (Q n).seated hne
  have hib := position_bounds (Q n) first
  have hjb := position_bounds (Q n) last
  have hs := seqAt_cases hne hib
  have he := seqAt_cases hne hjb
  generalize hip : (Q n).position first.toInt = i at *
  generalize hjp : (Q n).position last.toInt = j at *
  rw [Sliced, or_iff_right hne, or_iff_right (fun hle => absurd hle.1 (not_le.mpr hi)), and_iff_right hi]
  split_ifs with hstray
  · have hpart := qslice_part h hw hne first last rfl rfl 2 (ends (Q n))
      (by rw [hip]; simp only [ends, List.length_cons, List.length_nil]; omega) (by norm_num [ends])
      (record_ends hne)
    rw [hpart, hip, hjp]
    simp only [Prod.mk.injEq, true_and]
  · rw [qslice_missing h hw hne first last rfl rfl]
    · simp only [Prod.mk.injEq, true_and]
      rw [eq_comm, between_nil hne hi]
    · rw [hip, hjp]
      by_cases hfar : (Q n).first + i = 2 ∨ (Q n).first + i = 3
      · left
        have hnot := fun h' => hstray ⟨hfar, h'⟩
        omega
      · right
        have hx : (seqAt (Q n) i : Int) = ((Q n).first + i) % 18446744073709551616 := by
          rw [seqAt]
          omega
        rw [record_position hne hib hx, if_neg (by omega), if_neg (by omega), if_neg (by omega)]

end sliced

theorem qslice_iff (h : Stores w.ldb.data Q) (hw : w.faults = Faults.none) (first last : Int64) :
    (qslice n first last w).1 =
        (0, between (Q n).items ((Q n).position first.toInt) ((Q n).position last.toInt)) ↔
      Sliced (Q n) ((Q n).position first.toInt) ((Q n).position last.toInt) := by
  rcases eq_or_ne (Q n).items [] with hnil | hne
  · refine iff_of_true ?_ (.inl hnil)
    rw [qslice_nil h hw hnil, between, hnil, List.take_nil, List.drop_nil]
  · rcases le_or_gt 0 ((Q n).position first.toInt) with hi | hi
    · rw [qslice_after h hw hne first last hi]
      simp only [Sliced, hne, hi, not_lt.mpr hi, false_or, true_and, false_and, or_false]
    · exact qslice_before h hw hne first last hi

/-- However leveldb answered the calls before, which slices are the items at the positions asked
for. -/
theorem qslice_exact_iff (enabled : Bool) (capacity : Int32) (cs : List (Call × Faults))
    (hcs : ∀ e ∈ cs, e.1.plain = true) :
    let w := (execAll cs (fresh enabled capacity)).2
    ∃ ds, ds.Sublist (cs.map Prod.fst) ∧ let Q := (answerAll ds fun _ => .empty).2
      Stores w.ldb.data Q ∧ ∀ n (first last : Int64),
        let i := (Q n).position first.toInt
        let j := (Q n).position last.toInt
        (qslice n first last w).1 = (0, between (Q n).items i j) ↔ Sliced (Q n) i j := by
  intro w
  obtain ⟨ds, hds, hstores⟩ := execAll_follows (w := fresh enabled capacity) hcs stores_empty
  have hw : w.faults = Faults.none := Call.execAll_faults cs rfl
  exact ⟨ds, hds, hstores, fun n first last => qslice_iff hstores hw first last⟩

theorem qslice_exact_iff_pushed :
    let w := (execAll [(.qpushBack [113] [97] 1, Faults.none), (.qpushFront [113] [98] 1, Faults.none),
      (.qpushBack [113] [99] 1, Faults.none)] (fresh true 1000)).2
    ∃ ds, ds.Sublist [Call.qpushBack [113] [97] 1, .qpushFront [113] [98] 1, .qpushBack [113] [99] 1] ∧
      let Q := (answerAll ds fun _ => .empty).2
      (qslice [113] 0 5 w).1 =
        (0, between (Q [113]).items ((Q [113]).position 0) ((Q [113]).position 5)) := by
  intro w
  obtain ⟨ds, hds, -, hiff⟩ := qslice_exact_iff true 1000
    [(.qpushBack [113] [97] 1, Faults.none), (.qpushFront [113] [98] 1, Faults.none),
      (.qpushBack [113] [99] 1, Faults.none)] (by decide)
  exact ⟨ds, hds, (hiff [113] 0 5).mpr (.inr (.inl ⟨le_rfl, .inr (.inl (Int.zero_le_ofNat 5))⟩))⟩

theorem unclipped_slices :
    let w := (execAll [(.qpushBack [113] [97] 1, Faults.none)] (fresh true 1000)).2
    (qslice [113] 0 (-9223372036854775808) w).1 = (0, [[97]]) ∧
      (qslice [113] (-2) 0 w).1 = (0, []) := by
  decide +kernel

end Queues
