import Ssdb.Api.Extension
import Ssdb.Theory.Places

namespace SSDB
open SSDBImpl

section gathering
variable {more : Int64 → Bool} {step : Int64 → Int64} {add : Bytes → List Bytes → List Bytes}
  {read : Int64 → M (Int × Option Bytes)}

def keep (add : Bytes → List Bytes → List Bytes) (values : List Bytes) (a : Bytes) : List Bytes :=
  if a.length ≠ 0 then add a values else values

theorem gather_exits {S : Int64 → List Bytes → SSDBImpl → Prop}
    (hstop : ∀ i w, S i [] w → more i = false)
    (hnext : ∀ i a l w, S i (a :: l) w →
      more i = true ∧ ∃ w', read i w = ((1, some a), w') ∧ S (step i) l w')
    (l : List Bytes) {v : Gather} {w : SSDBImpl} (h : S v.i l w) :
    ∃ i w', S i [] w' ∧
      Loop.Exits (gatherRound more step add read) (v, w) (l.foldl (keep add) v.values, w') := by
  induction l generalizing v w with
  | nil =>
    have hround : gatherRound more step add read (v, w) = .inr (v.values, w) := by
      simp [gatherRound, hstop v.i w h]
    exact ⟨v.i, w, h, .stop hround⟩
  | cons a l ih =>
    obtain ⟨hmore, w', hread, h'⟩ := hnext v.i a l w h
    obtain ⟨i, w'', hleft, hexits⟩ := ih (v := ⟨step v.i, a, keep add v.values a⟩) h'
    have hround : gatherRound more step add read (v, w) =
        .inl (⟨step v.i, a, keep add v.values a⟩, w') := by
      simp only [gatherRound, hmore, if_true, hread, Option.getD_some, keep]
    exact ⟨i, w'', hleft, .next hround hexits⟩

theorem keep_up (l values : List Bytes) :
    l.foldl (keep fun value values => values ++ [value]) values =
      values ++ l.filter (fun a => a ≠ []) := by
  induction l generalizing values with
  | nil => simp
  | cons a l ih =>
    rw [List.foldl_cons, ih]
    cases a <;> simp [keep]

theorem keep_down (l values : List Bytes) :
    l.foldl (keep fun value values => value :: values) values =
      (l.filter (fun a => a ≠ [])).reverse ++ values := by
  induction l generalizing values with
  | nil => simp
  | cons a l ih =>
    rw [List.foldl_cons, ih]
    cases a <;> simp [keep]

end gathering

theorem pred_toInt {i : Int64} (h : -2 ^ 63 < i.toInt) : (i - 1).toInt = i.toInt - 1 := by
  have hhigh := i.toInt_lt
  rw [Int64.toInt_sub]
  exact Int.bmod_eq_of_le (by change _ ≤ _ - (1 : Int); omega) (by change _ - (1 : Int) < _; omega)

def UpTo (stop : ℕ) (i : Int64) (k : ℕ) : Prop :=
  0 ≤ i.toInt ∧ (i.toInt + k = stop ∨ k = 0 ∧ stop ≤ i.toInt)

theorem upTo_stop {bound : UInt64} {i : Int64} (h : UpTo bound.toNat i 0) :
    ¬i.toUInt64 < bound := by
  have hword := Endian.toInt_toUInt64 i
  have hlt := i.toUInt64.toNat_lt
  rw [UpTo] at h
  rw [UInt64.lt_iff_toNat_lt]
  omega

theorem upTo_next {bound : UInt64} {i : Int64} {k : ℕ} (hb : bound.toNat < 2 ^ 63)
    (h : UpTo bound.toNat i (k + 1)) : i.toUInt64 < bound ∧ UpTo bound.toNat (i + 1) k := by
  have hword := Endian.toInt_toUInt64 i
  have hlt := i.toUInt64.toNat_lt
  rw [UpTo] at h
  rw [UInt64.lt_iff_toNat_lt, UpTo, Queues.succ_toInt (by omega)]
  omega

def DownTo (stop : Int) (i : Int64) (k : ℕ) : Prop :=
  i.toInt < 0 ∧ (i.toInt - k = stop ∨ k = 0 ∧ i.toInt ≤ stop)

theorem downTo_stop {bound : UInt64} {i : Int64} (h : DownTo (bound.toNat - 2 ^ 64) i 0) :
    ¬i.toUInt64 > bound := by
  have hword := Endian.toInt_toUInt64 i
  rw [DownTo] at h
  rw [gt_iff_lt, UInt64.lt_iff_toNat_lt]
  omega

theorem downTo_next {bound : UInt64} {i : Int64} {k : ℕ} (hb : 2 ^ 63 ≤ bound.toNat)
    (h : DownTo (bound.toNat - 2 ^ 64) i (k + 1)) :
    i.toUInt64 > bound ∧ DownTo (bound.toNat - 2 ^ 64) (i - 1) k := by
  have hword := Endian.toInt_toUInt64 i
  rw [DownTo] at h
  rw [gt_iff_lt, UInt64.lt_iff_toNat_lt, DownTo, pred_toInt (by omega)]
  omega

def Fits (offset : Int) (count : ℕ) : Prop :=
  if 0 ≤ offset then offset + count < 2 ^ 64 else count ≤ 2 ^ 64 + offset

instance (offset : Int) (count : ℕ) : Decidable (Fits offset count) :=
  inferInstanceAs (Decidable (if 0 ≤ offset then offset + count < 2 ^ 64 else count ≤ 2 ^ 64 + offset))

def selected (items : List Bytes) (offset : Int) (count : ℕ) : List Bytes :=
  if 0 ≤ offset then (items.drop offset.toNat).take count
  else
    let stop := (items.length + offset + 1).toNat
    (items.take stop).drop (stop - count)

def reached (items : List Bytes) (offset : Int) (count : ℕ) : List Bytes :=
  if Fits offset count then selected items offset count else []

theorem reached_up {items : List Bytes} {offset : Int} {count : ℕ} (h : 0 ≤ offset) :
    reached items offset count =
      if offset + count < 2 ^ 64 then (items.drop offset.toNat).take count else [] := by
  simp only [reached, Fits, selected, if_pos h]

theorem reached_down {items : List Bytes} {offset : Int} {count : ℕ} (h : ¬0 ≤ offset) :
    reached items offset count =
      if count ≤ 2 ^ 64 + offset then
        (items.take (items.length + offset + 1).toNat).drop
          ((items.length + offset + 1).toNat - count)
      else [] := by
  simp only [reached, Fits, selected, if_neg h]

theorem toNat_min (a b : UInt64) :
    (min a b).toNat = a.toNat ∧ a.toNat ≤ b.toNat ∨ (min a b).toNat = b.toNat ∧ b.toNat ≤ a.toNat := by
  change (if a ≤ b then a else b).toNat = _ ∧ _ ∨ (if a ≤ b then a else b).toNat = _ ∧ _
  split_ifs with h
  · exact .inl ⟨rfl, UInt64.le_iff_toNat_le.mp h⟩
  · exact .inr ⟨rfl, (Nat.lt_of_not_le (UInt64.le_iff_toNat_le.not.mp h)).le⟩

theorem toNat_max (a b : UInt64) :
    (max a b).toNat = b.toNat ∧ a.toNat ≤ b.toNat ∨ (max a b).toNat = a.toNat ∧ b.toNat ≤ a.toNat := by
  change (if a ≤ b then b else a).toNat = _ ∧ _ ∨ (if a ≤ b then b else a).toNat = _ ∧ _
  split_ifs with h
  · exact .inl ⟨rfl, UInt64.le_iff_toNat_le.mp h⟩
  · exact .inr ⟨rfl, (Nat.lt_of_not_le (UInt64.le_iff_toNat_le.not.mp h)).le⟩

theorem upTo_reached {items : List Bytes} {offset : Int64} (count : UInt64) {size : UInt64}
    (hsize : size.toNat = items.length) (h0 : 0 ≤ offset.toInt) :
    UpTo (min (offset.toUInt64 + count) size).toNat offset
      (reached items offset.toInt count.toNat).length := by
  have hword := Endian.toInt_toUInt64 offset
  have hlt := offset.toUInt64.toNat_lt
  have hcount := count.toNat_lt
  have hmin := toNat_min (offset.toUInt64 + count) size
  rw [UInt64.toNat_add] at hmin
  rw [UpTo, reached_up h0]
  split_ifs
  · simp only [List.length_take, List.length_drop]
    omega
  · exact ⟨h0, .inr ⟨List.length_nil, by omega⟩⟩

theorem downTo_reached {items : List Bytes} {offset : Int64} (count : UInt64) {size : UInt64}
    (hsize : size.toNat = items.length) (hlen : items.length < 2 ^ 63) (h0 : ¬0 ≤ offset.toInt) :
    2 ^ 63 ≤ (max (offset.toUInt64 - count) (-size - 1)).toNat ∧
      DownTo ((max (offset.toUInt64 - count) (-size - 1)).toNat - 2 ^ 64) offset
        (reached items offset.toInt count.toNat).length := by
  have hword := Endian.toInt_toUInt64 offset
  have hlt := offset.toUInt64.toNat_lt
  have hcount := count.toNat_lt
  have hone : UInt64.toNat 1 = 1 := rfl
  have hword64 : UInt64.size = 2 ^ 64 := rfl
  have hlow : (-size - 1).toNat = 2 ^ 64 - 1 - items.length := by
    rw [UInt64.toNat_sub, UInt64.toNat_neg, hone, hsize, hword64]
    omega
  have hmax := toNat_max (offset.toUInt64 - count) (-size - 1)
  rw [hlow, UInt64.toNat_sub] at hmax
  rw [DownTo, reached_down h0]
  refine ⟨by omega, by omega, ?_⟩
  split_ifs
  · simp only [List.length_drop, List.length_take]
    omega
  · exact .inr ⟨List.length_nil, by omega⟩

section rounds
open Queues
variable {w : SSDBImpl} {Q : Queues} {n : Bytes} {bound : UInt64} {v : Gather} {l : List Bytes}

theorem qget_placed (h : Stores w.ldb.data Q) (hw : w.faults = Faults.none) {index : Int64} {i : ℕ}
    (hplace : (Q n).place index.toInt = some i) :
    qget n index w = ((1, (Q n).items[i]?), w) := by
  obtain ⟨hpos, hlt⟩ := (Q n).place_eq_some_iff.mp hplace
  have hne : (Q n).items ≠ [] := List.length_pos_iff.mp (by omega)
  have hs := (Q n).seated hne
  have hnot : ¬Astray (Q n) index.toInt := by
    rw [astray_position hne, hpos]
    omega
  have hreply : (qget n index w).1 = (1, (Q n).items[i]?) := by
    rw [(qget_bounded_iff h hw index).mpr hnot, getReply, hplace]
  have hstate : (qget n index w).2 = w := by rw [qget_apply (by rw [hw]; rfl)]
  exact Prod.ext hreply hstate

theorem gather_up (add : Bytes → List Bytes → List Bytes) (read : Int64 → M (Int × Option Bytes))
    {S : Int64 → List Bytes → SSDBImpl → Prop} (hb : bound.toNat < 2 ^ 63)
    (hread : ∀ (i : Int64) a l w, 0 ≤ i.toInt → i.toInt < bound.toNat → S i (a :: l) w →
      ∃ w', read i w = ((1, some a), w') ∧ S (i + 1) l w')
    (hC : UpTo bound.toNat v.i l.length) (h : S v.i l w) :
    ∃ i w', S i [] w' ∧ Loop.Exits
      (gatherRound (fun i => i.toUInt64 < bound) (fun i => i + 1) add read) (v, w)
      (l.foldl (keep add) v.values, w') := by
  let T : Int64 → List Bytes → SSDBImpl → Prop := fun i l w => UpTo bound.toNat i l.length ∧ S i l w
  have hnext : ∀ i a l w, T i (a :: l) w → decide (i.toUInt64 < bound) = true ∧
      ∃ w', read i w = ((1, some a), w') ∧ T (i + 1) l w' := by
    rintro i a l w ⟨hC, hS⟩
    obtain ⟨hmore, hC'⟩ := upTo_next hb hC
    have hlt : i.toInt < bound.toNat := by
      rw [UpTo, List.length_cons] at hC
      omega
    obtain ⟨w', hw', hS'⟩ := hread i a l w hC.1 hlt hS
    exact ⟨decide_eq_true hmore, w', hw', hC', hS'⟩
  obtain ⟨i, w', ⟨-, hS⟩, hexits⟩ :=
    gather_exits (fun i w (h : T i [] w) => decide_eq_false (upTo_stop h.1)) hnext l ⟨hC, h⟩
  exact ⟨i, w', hS, hexits⟩

theorem gather_down (add : Bytes → List Bytes → List Bytes) (read : Int64 → M (Int × Option Bytes))
    {S : Int64 → List Bytes → SSDBImpl → Prop} (hb : 2 ^ 63 ≤ bound.toNat)
    (hread : ∀ (i : Int64) a l w, i.toInt < 0 → bound.toNat - 2 ^ 64 < i.toInt → S i (a :: l) w →
      ∃ w', read i w = ((1, some a), w') ∧ S (i - 1) l w')
    (hC : DownTo (bound.toNat - 2 ^ 64) v.i l.length) (h : S v.i l w) :
    ∃ i w', S i [] w' ∧ Loop.Exits
      (gatherRound (fun i => i.toUInt64 > bound) (fun i => i - 1) add read) (v, w)
      (l.foldl (keep add) v.values, w') := by
  let T : Int64 → List Bytes → SSDBImpl → Prop :=
    fun i l w => DownTo (bound.toNat - 2 ^ 64) i l.length ∧ S i l w
  have hnext : ∀ i a l w, T i (a :: l) w → decide (i.toUInt64 > bound) = true ∧
      ∃ w', read i w = ((1, some a), w') ∧ T (i - 1) l w' := by
    rintro i a l w ⟨hC, hS⟩
    obtain ⟨hmore, hC'⟩ := downTo_next hb hC
    have hlt : bound.toNat - 2 ^ 64 < i.toInt := by
      rw [DownTo, List.length_cons] at hC
      omega
    obtain ⟨w', hw', hS'⟩ := hread i a l w hC.1 hlt hS
    exact ⟨decide_eq_true hmore, w', hw', hC', hS'⟩
  obtain ⟨i, w', ⟨-, hS⟩, hexits⟩ :=
    gather_exits (fun i w (h : T i [] w) => decide_eq_false (downTo_stop h.1)) hnext l ⟨hC, h⟩
  exact ⟨i, w', hS, hexits⟩

theorem range_up (add : Bytes → List Bytes → List Bytes) (h : Stores w.ldb.data Q)
    (hw : w.faults = Faults.none) (hb : bound.toNat < 2 ^ 63)
    (hC : UpTo bound.toNat v.i l.length) (hl : l <+: (Q n).items.drop v.i.toInt.toNat) :
    Loop.Exits (gatherRound (fun i => i.toUInt64 < bound) (fun i => i + 1) add (qget n)) (v, w)
      (l.foldl (keep add) v.values, w) := by
  let S : Int64 → List Bytes → SSDBImpl → Prop :=
    fun i l w' => w' = w ∧ l <+: (Q n).items.drop i.toInt.toNat
  have hread : ∀ (i : Int64) a l w', 0 ≤ i.toInt → i.toInt < bound.toNat → S i (a :: l) w' →
      ∃ w'', qget n i w' = ((1, some a), w'') ∧ S (i + 1) l w'' := by
    rintro i a l w' hi hlt ⟨rfl, rest, hrest⟩
    have hitem : (Q n).items[i.toInt.toNat]? = some a := by
      rw [← List.head?_drop, ← hrest]
      rfl
    have hin := (List.getElem?_eq_some_iff.mp hitem).1
    have hplace : (Q n).place i.toInt = some i.toInt.toNat := by
      rw [Deque.place, if_pos hi, if_pos (by omega)]
    have hnext : (i + 1).toInt.toNat = i.toInt.toNat + 1 := by
      rw [Queues.succ_toInt (by omega)]
      omega
    refine ⟨w', ?_, rfl, rest, ?_⟩
    · rw [qget_placed h hw hplace, hitem]
    · rw [hnext, ← List.tail_drop, ← hrest]
      rfl
  obtain ⟨i, w', ⟨rfl, -⟩, hexits⟩ := gather_up add (qget n) hb hread hC ⟨rfl, hl⟩
  exact hexits

theorem range_down (add : Bytes → List Bytes → List Bytes) (h : Stores w.ldb.data Q)
    (hw : w.faults = Faults.none) (hb : 2 ^ 63 ≤ bound.toNat)
    (hC : DownTo (bound.toNat - 2 ^ 64) v.i l.length)
    (hl : l.reverse <:+ (Q n).items.take ((Q n).items.length + v.i.toInt + 1).toNat) :
    Loop.Exits (gatherRound (fun i => i.toUInt64 > bound) (fun i => i - 1) add (qget n)) (v, w)
      (l.foldl (keep add) v.values, w) := by
  let S : Int64 → List Bytes → SSDBImpl → Prop := fun i l w' =>
    w' = w ∧ l.reverse <:+ (Q n).items.take ((Q n).items.length + i.toInt + 1).toNat
  have hread : ∀ (i : Int64) a l w', i.toInt < 0 → bound.toNat - 2 ^ 64 < i.toInt → S i (a :: l) w' →
      ∃ w'', qget n i w' = ((1, some a), w'') ∧ S (i - 1) l w'' := by
    rintro i a l w' hi hlt ⟨rfl, rest, hrest⟩
    rw [List.reverse_cons, ← List.append_assoc] at hrest
    have hnext : (i - 1).toInt = i.toInt - 1 := pred_toInt (by omega)
    obtain ⟨j, hj⟩ : ∃ j : ℕ, ((Q n).items.length + i.toInt : Int) = j := by
      refine ⟨((Q n).items.length + i.toInt).toNat, (Int.toNat_of_nonneg ?_).symm⟩
      by_contra hneg
      rw [show ((Q n).items.length + i.toInt + 1).toNat = 0 by omega, List.take_zero] at hrest
      simp at hrest
    have hlt : j < (Q n).items.length := by omega
    rw [hj, show ((j : Int) + 1).toNat = j + 1 by omega, List.take_succ_eq_append_getElem hlt] at hrest
    obtain ⟨hinit, hlast⟩ := List.append_inj' hrest rfl
    have hplace : (Q n).place i.toInt = some j := by
      rw [Deque.place, if_neg (by omega), if_pos (by omega), hj, Int.toNat_natCast]
    refine ⟨w', ?_, rfl, rest, ?_⟩
    · rw [qget_placed h hw hplace, List.getElem?_eq_getElem hlt, (List.singleton_inj.mp hlast)]
    · rw [hnext, show ((Q n).items.length + (i.toInt - 1) + 1).toNat = j by omega]
      exact hinit
  obtain ⟨i, w', ⟨rfl, -⟩, hexits⟩ := gather_down add (qget n) hb hread hC ⟨rfl, hl⟩
  exact hexits

theorem pop_reply (e : End) (h : Stores w.ldb.data Q) (hw : w.faults = Faults.none) {a : Bytes}
    (ha : (Q n).peek e = some a) :
    ∃ w' Q', qpop n e.seq BinlogType.SYNC w = ((1, some a), w') ∧ w'.faults = Faults.none ∧
      Stores w'.ldb.data Q' ∧ (Q' n).items = ((Q n).pop e).items := by
  have hne : (Q n).items ≠ [] := by
    rintro hnil
    cases e <;> simp [Deque.peek, hnil] at ha
  obtain ⟨hreply, hstores⟩ := qpop_result (t := BinlogType.SYNC) (n := n) e h hw
  rw [popReply, if_neg hne, ha] at hreply
  rw [afterPop, if_neg hne] at hstores
  exact ⟨_, _, Prod.ext hreply rfl, qpop_quiet e hw, hstores, by rw [Function.update_self]⟩

theorem pop_up (add : Bytes → List Bytes → List Bytes) {rest : List Bytes}
    (h : Stores w.ldb.data Q) (hw : w.faults = Faults.none) (hb : bound.toNat < 2 ^ 63)
    (hC : UpTo bound.toNat v.i l.length)
    (hl : (Q n).items = l ++ rest) :
    ∃ w' Q', Stores w'.ldb.data Q' ∧ w'.faults = Faults.none ∧ (Q' n).items = rest ∧
      Loop.Exits (gatherRound (fun i => i.toUInt64 < bound) (fun i => i + 1) add
        fun _ => qpopFront n BinlogType.SYNC) (v, w) (l.foldl (keep add) v.values, w') := by
  let S : Int64 → List Bytes → SSDBImpl → Prop := fun _ l w =>
    w.faults = Faults.none ∧ ∃ Q : Queues, Stores w.ldb.data Q ∧ (Q n).items = l ++ rest
  have hread : ∀ (i : Int64) a l w, 0 ≤ i.toInt → i.toInt < bound.toNat → S i (a :: l) w →
      ∃ w', qpopFront n BinlogType.SYNC w = ((1, some a), w') ∧ S (i + 1) l w' := by
    rintro i a l w - - ⟨hw, Q, h, hl⟩
    have hpeek : (Q n).peek .front = some a := by rw [Deque.peek, hl, List.cons_append, List.head?_cons]
    obtain ⟨w', Q', hpop, hw', hQ', hitems⟩ := pop_reply .front h hw hpeek
    refine ⟨w', hpop, hw', Q', hQ', ?_⟩
    change (Q' n).items = (Q n).items.tail at hitems
    rw [hitems, hl]
    rfl
  obtain ⟨i, w', ⟨hw', Q', hQ', hrest⟩, hexits⟩ :=
    gather_up add (fun _ => qpopFront n BinlogType.SYNC) hb hread hC ⟨hw, Q, h, hl⟩
  exact ⟨w', Q', hQ', hw', hrest, hexits⟩

theorem pop_down (add : Bytes → List Bytes → List Bytes) {rest : List Bytes}
    (h : Stores w.ldb.data Q) (hw : w.faults = Faults.none) (hb : 2 ^ 63 ≤ bound.toNat)
    (hC : DownTo (bound.toNat - 2 ^ 64) v.i l.length)
    (hl : (Q n).items = rest ++ l.reverse) :
    ∃ w' Q', Stores w'.ldb.data Q' ∧ w'.faults = Faults.none ∧ (Q' n).items = rest ∧
      Loop.Exits (gatherRound (fun i => i.toUInt64 > bound) (fun i => i - 1) add
        fun _ => qpopBack n BinlogType.SYNC) (v, w) (l.foldl (keep add) v.values, w') := by
  let S : Int64 → List Bytes → SSDBImpl → Prop := fun _ l w =>
    w.faults = Faults.none ∧ ∃ Q : Queues, Stores w.ldb.data Q ∧ (Q n).items = rest ++ l.reverse
  have hread : ∀ (i : Int64) a l w, i.toInt < 0 → bound.toNat - 2 ^ 64 < i.toInt → S i (a :: l) w →
      ∃ w', qpopBack n BinlogType.SYNC w = ((1, some a), w') ∧ S (i - 1) l w' := by
    rintro i a l w - - ⟨hw, Q, h, hl⟩
    rw [List.reverse_cons, ← List.append_assoc] at hl
    have hpeek : (Q n).peek .back = some a := by rw [Deque.peek, hl, List.getLast?_concat]
    obtain ⟨w', Q', hpop, hw', hQ', hitems⟩ := pop_reply .back h hw hpeek
    refine ⟨w', hpop, hw', Q', hQ', ?_⟩
    change (Q' n).items = (Q n).items.dropLast at hitems
    rw [hitems, hl]
    exact List.dropLast_concat
  obtain ⟨i, w', ⟨hw', Q', hQ', hrest⟩, hexits⟩ :=
    gather_down add (fun _ => qpopBack n BinlogType.SYNC) hb hread hC ⟨hw, Q, h, hl⟩
  exact ⟨w', Q', hQ', hw', by simpa using hrest, hexits⟩

theorem qSize_count (table : Bytes) (h : Stores w.ldb.data Q) (hw : w.faults = Faults.none) :
    ∃ size : Int64, qSize table w = (size, w) ∧
      size.toUInt64.toNat = (Q (cString table)).items.length := by
  have hlen := length_lt (Q (cString table))
  have hreply := (qsize_result (n := cString table) h hw).reply
  have hsize : qSize table w = ((qsize (cString table) w).1, w) := by
    rw [qSize, qsize_apply _ (by rw [hw]; rfl)]
  refine ⟨_, hsize, ?_⟩
  have hword := Endian.toInt_toUInt64 (Int64.ofNat (Q (cString table)).items.length)
  have hlt := (Int64.ofNat (Q (cString table)).items.length).toUInt64.toNat_lt
  rw [Counter.ofNat_toInt hlen] at hword
  rw [hreply]
  omega

theorem qRange_reached (table : Bytes) (offset : Int64) (count : UInt64) (h : Stores w.ldb.data Q)
    (hw : w.faults = Faults.none) : qRange table offset count w
      ((reached (Q (cString table)).items offset.toInt count.toNat).filter (fun a => a ≠ []), w) := by
  obtain ⟨size, hsize, hcount⟩ := qSize_count table h hw
  have hlen := length_lt (Q (cString table))
  rw [qRange, hsize]
  simp only [nonneg_iff]
  split_ifs with h0
  · have hb : (min (offset.toUInt64 + count) size.toUInt64).toNat < 2 ^ 63 := by
      have hmin := toNat_min (offset.toUInt64 + count) size.toUInt64
      omega
    have hpart : reached (Q (cString table)).items offset.toInt count.toNat <+:
        (Q (cString table)).items.drop offset.toInt.toNat := by
      rw [reached_up h0]
      split_ifs
      · exact List.take_prefix _ _
      · exact List.nil_prefix
    have hexits := range_up (v := ⟨offset, [], []⟩) (fun value values => values ++ [value])
      h hw hb (upTo_reached count hcount h0) hpart
    rwa [keep_up] at hexits
  · obtain ⟨hb, hC⟩ := downTo_reached count hcount hlen h0
    rw [← List.length_reverse] at hC
    have hpart : (reached (Q (cString table)).items offset.toInt count.toNat).reverse.reverse <:+
        (Q (cString table)).items.take
          ((Q (cString table)).items.length + offset.toInt + 1).toNat := by
      rw [List.reverse_reverse, reached_down h0]
      split_ifs
      · exact List.drop_suffix _ _
      · exact List.nil_suffix
    have hexits := range_down (v := ⟨offset, [], []⟩) (fun value values => value :: values)
      h hw hb hC hpart
    rwa [keep_down, List.filter_reverse, List.reverse_reverse, List.append_nil] at hexits

theorem reached_front (items : List Bytes) (count : UInt64) :
    reached items 0 count.toNat = items.take count.toNat := by
  have hcount := count.toNat_lt
  rw [reached_up le_rfl, if_pos (by omega)]
  rfl

theorem reached_back (items : List Bytes) (count : UInt64) :
    reached items (-1) count.toNat = items.drop (items.length - count.toNat) := by
  have hcount := count.toNat_lt
  have hstop : ((items.length : Int) + -1 + 1).toNat = items.length := by omega
  rw [reached_down (by decide), if_pos (by omega), hstop, List.take_length]

theorem qPop_front (table : Bytes) {offset : Int64} (h0 : offset.toInt = 0) (count : UInt64)
    (h : Stores w.ldb.data Q) (hw : w.faults = Faults.none) :
    ∃ w' Q', Stores w'.ldb.data Q' ∧ w'.faults = Faults.none ∧ (Q (cString table)).items =
        reached (Q (cString table)).items offset.toInt count.toNat ++ (Q' (cString table)).items ∧
      qPop table offset count w ((reached (Q (cString table)).items offset.toInt
        count.toNat).filter (fun a => a ≠ []), w') := by
  obtain ⟨size, hsize, hcount⟩ := qSize_count table h hw
  have hlen := length_lt (Q (cString table))
  have hC := upTo_reached count hcount h0.ge
  have hb : (min (offset.toUInt64 + count) size.toUInt64).toNat < 2 ^ 63 := by
    have hmin := toNat_min (offset.toUInt64 + count) size.toUInt64
    omega
  have hparts : (Q (cString table)).items =
      reached (Q (cString table)).items offset.toInt count.toNat ++
        (Q (cString table)).items.drop count.toNat := by
    rw [h0, reached_front, List.take_append_drop]
  obtain ⟨w', Q', hQ', hw', hrest, hexits⟩ := pop_up (v := ⟨offset, [], []⟩)
    (fun value values => values ++ [value]) h hw hb hC hparts
  rw [keep_up] at hexits
  refine ⟨w', Q', hQ', hw', by rw [hrest]; exact hparts, ?_⟩
  rw [qPop, hsize]
  simp only [nonneg_iff, if_pos h0.ge]
  exact hexits

theorem qPop_back (table : Bytes) {offset : Int64} (h1 : offset.toInt = -1) (count : UInt64)
    (h : Stores w.ldb.data Q) (hw : w.faults = Faults.none) :
    ∃ w' Q', Stores w'.ldb.data Q' ∧ w'.faults = Faults.none ∧ (Q (cString table)).items =
        (Q' (cString table)).items ++ reached (Q (cString table)).items offset.toInt count.toNat ∧
      qPop table offset count w ((reached (Q (cString table)).items offset.toInt
        count.toNat).filter (fun a => a ≠ []), w') := by
  obtain ⟨size, hsize, hcount⟩ := qSize_count table h hw
  have hlen := length_lt (Q (cString table))
  have hneg : ¬0 ≤ offset.toInt := by omega
  obtain ⟨hb, hC⟩ := downTo_reached count hcount hlen hneg
  rw [← List.length_reverse] at hC
  have hparts : (Q (cString table)).items =
      (Q (cString table)).items.take ((Q (cString table)).items.length - count.toNat) ++
        (reached (Q (cString table)).items offset.toInt count.toNat).reverse.reverse := by
    rw [List.reverse_reverse, h1, reached_back, List.take_append_drop]
  obtain ⟨w', Q', hQ', hw', hrest, hexits⟩ := pop_down (v := ⟨offset, [], []⟩)
    (fun value values => value :: values) h hw hb hC hparts
  rw [keep_down, List.filter_reverse, List.reverse_reverse, List.append_nil] at hexits
  refine ⟨w', Q', hQ', hw', ?_, ?_⟩
  · rw [List.reverse_reverse] at hparts
    rw [hrest]
    exact hparts
  · rw [qPop, hsize]
    simp only [nonneg_iff, if_neg hneg]
    exact hexits

end rounds

inductive QueueCall
  | qPush (table aValue : Bytes)
  | qPushFront (table aValue : Bytes)
  | qSet (table aValue : Bytes) (index : Int64)
deriving DecidableEq, Repr

def QueueCall.exec (w : SSDBImpl) : QueueCall → SSDBImpl
  | .qPush table aValue => (SSDB.qPush table aValue w).2
  | .qPushFront table aValue => (SSDB.qPushFront table aValue w).2
  | .qSet table aValue index => (SSDB.qSet table aValue index w).2

def filled (cs : List QueueCall) (w : SSDBImpl) : SSDBImpl := cs.foldl QueueCall.exec w

structure Contains (n : Bytes) (w : SSDBImpl) (items : List Bytes) : Prop where
  size : (qsize n w).1.toInt = items.length
  item : ∀ index : Int64, 0 ≤ index.toInt → index.toInt < items.length →
    (qget n index w).1 = (1, items[index.toInt.toNat]?)

structure Lossless (table : Bytes) (offset : Int64) (count : UInt64) (w : SSDBImpl)
    (items : List Bytes) : Prop where
  range : -(items.length : Int) ≤ offset.toInt →
    ∃ w', qRange table offset count w (selected items offset.toInt count.toNat, w')
  pop : offset = 0 ∨ offset = -1 → ∃ values w' v, qRange table offset count w (values, v) ∧
    qPop table offset count w (values, w') ∧ ∃ rest, Contains (cString table) w' rest ∧
      items = if offset = 0 then values ++ rest else rest ++ values

section filled
open Queues
variable {w : SSDBImpl} {Q : Queues} {n : Bytes} {items : List Bytes}

theorem exec_stores (c : QueueCall) (h : Stores w.ldb.data Q) (hw : w.faults = Faults.none) :
    (c.exec w).faults = Faults.none ∧ ∃ Q', Stores (c.exec w).ldb.data Q' := by
  cases c with
  | qPush table aValue =>
    exact ⟨qpush_quiet (t := BinlogType.SYNC) aValue .back hw, _,
      (qpush_result (t := BinlogType.SYNC) aValue .back h hw).stores⟩
  | qPushFront table aValue =>
    exact ⟨qpush_quiet (t := BinlogType.SYNC) aValue .front hw, _,
      (qpush_result (t := BinlogType.SYNC) aValue .front h hw).stores⟩
  | qSet table aValue index =>
    exact ⟨qset_quiet (t := BinlogType.SYNC) index aValue hw, _,
      (qset_result (t := BinlogType.SYNC) index aValue h hw).stores⟩

theorem filled_stores (cs : List QueueCall) (h : Stores w.ldb.data Q)
    (hw : w.faults = Faults.none) :
    (filled cs w).faults = Faults.none ∧ ∃ Q', Stores (filled cs w).ldb.data Q' := by
  induction cs generalizing w Q with
  | nil => exact ⟨hw, Q, h⟩
  | cons c cs ih =>
    obtain ⟨hquiet, Q', hstores⟩ := exec_stores c h hw
    exact ih hstores hquiet

theorem stores_contains (n : Bytes) (h : Stores w.ldb.data Q) (hw : w.faults = Faults.none) :
    Contains n w (Q n).items where
  size := by rw [(qsize_result h hw).reply, Counter.ofNat_toInt (length_lt (Q n))]
  item index h0 hlt := by
    have hplace : (Q n).place index.toInt = some index.toInt.toNat := by
      rw [Deque.place, if_pos h0, if_pos hlt]
    rw [qget_placed h hw hplace]

theorem Contains.unique {items' : List Bytes} (h : Contains n w items)
    (h' : Contains n w items') : items = items' := by
  have hsize := h.size
  have hlen : items.length = items'.length := by
    rw [h'.size] at hsize
    omega
  have hmax := (qsize n w).1.toInt_lt
  refine List.ext_getElem? fun i => ?_
  rcases lt_or_ge i items.length with hi | hi
  · have hindex : (Int64.ofNat i).toInt = i := Counter.ofNat_toInt (by omega)
    have hitem := h.item (Int64.ofNat i) (by omega) (by omega)
    rw [h'.item (Int64.ofNat i) (by omega) (by omega), hindex] at hitem
    exact (congrArg Prod.snd hitem).symm
  · rw [List.getElem?_eq_none hi, List.getElem?_eq_none (hlen ▸ hi)]

theorem selected_far {offset : Int} {count : ℕ} (h : offset < -items.length) :
    selected items offset count = [] := by
  have hstop : ((items.length : Int) + offset + 1).toNat = 0 := by omega
  rw [selected, if_neg (by omega)]
  simp only [hstop, List.take_zero, List.drop_nil]

theorem reached_selected_iff (items : List Bytes) (offset : Int) (count : ℕ) :
    (reached items offset count).filter (fun a => a ≠ []) = selected items offset count ↔
      selected items offset count = [] ∨
        Fits offset count ∧ [] ∉ selected items offset count := by
  rw [reached]
  split_ifs with hfits
  · rw [List.filter_eq_self, and_iff_right hfits]
    constructor
    · exact fun hall => .inr fun hmem => of_decide_eq_true (hall [] hmem) rfl
    · rintro (hnil | hnone) a ha
      · exact absurd (hnil ▸ ha) List.not_mem_nil
      · exact decide_eq_true fun hempty => hnone (hempty ▸ ha)
  · rw [List.filter_nil]
    constructor
    · exact fun hnil => .inl hnil.symm
    · rintro (hnil | hhere)
      · exact hnil.symm
      · exact absurd hhere.1 hfits

theorem qPop_ends (table : Bytes) {offset : Int64} (hend : offset = 0 ∨ offset = -1) (count : UInt64)
    (h : Stores w.ldb.data Q) (hw : w.faults = Faults.none) : ∃ w' rest,
      Contains (cString table) w' rest ∧ (Q (cString table)).items =
        (if offset = 0 then reached (Q (cString table)).items offset.toInt count.toNat ++ rest
          else rest ++ reached (Q (cString table)).items offset.toInt count.toNat) ∧
      qPop table offset count w ((reached (Q (cString table)).items offset.toInt
        count.toNat).filter (fun a => a ≠ []), w') := by
  rcases eq_or_ne offset 0 with hzero | hne
  · have hstart : offset.toInt = 0 := by
      rw [hzero]
      rfl
    obtain ⟨w', Q', hQ', hw', hitems, hpop⟩ := qPop_front table hstart count h hw
    exact ⟨w', _, stores_contains _ hQ' hw', by rw [if_pos hzero]; exact hitems, hpop⟩
  · have hminus : offset.toInt = -1 := by
      rw [hend.resolve_left hne]
      rfl
    obtain ⟨w', Q', hQ', hw', hitems, hpop⟩ := qPop_back table hminus count h hw
    exact ⟨w', _, stores_contains _ hQ' hw', by rw [if_neg hne]; exact hitems, hpop⟩

theorem qRange_unique {table : Bytes} {offset : Int64} {count : UInt64} {r r' : List Bytes × SSDBImpl}
    (h : qRange table offset count w r) (h' : qRange table offset count w r') : r = r' := by
  rw [qRange] at h h'
  split_ifs at h h'
  · exact h.unique h'
  · exact h.unique h'

theorem lossless_iff (table : Bytes) (offset : Int64) (count : UInt64) (h : Stores w.ldb.data Q)
    (hw : w.faults = Faults.none) :
    Lossless table offset count w (Q (cString table)).items ↔
      selected (Q (cString table)).items offset.toInt count.toNat = [] ∨
        Fits offset.toInt count.toNat ∧
          [] ∉ selected (Q (cString table)).items offset.toInt count.toNat := by
  have hrange := qRange_reached table offset count h hw
  constructor
  · intro hlossless
    rcases lt_or_ge offset.toInt (-((Q (cString table)).items.length : Int)) with hfar | hnear
    · exact .inl (selected_far hfar)
    · obtain ⟨w', hw'⟩ := hlossless.range hnear
      exact (reached_selected_iff _ _ _).mp (congrArg Prod.fst (qRange_unique hrange hw'))
  · intro hpart
    have heq := (reached_selected_iff _ _ _).mpr hpart
    refine ⟨fun _ => ⟨w, heq ▸ hrange⟩, fun hend => ?_⟩
    obtain ⟨w', rest, hrest, hitems, hpop⟩ := qPop_ends table hend count h hw
    have hkept : (reached (Q (cString table)).items offset.toInt count.toNat).filter
        (fun a => a ≠ []) = reached (Q (cString table)).items offset.toInt count.toNat := by
      rw [reached] at heq ⊢
      split_ifs at heq ⊢
      · exact heq
      · rfl
    rw [hkept] at hrange hpop
    exact ⟨_, w', w, hrange, hpop, rest, hrest, hitems⟩

/-- However a queue was filled through the wrappers: `qRange:from:limit:` and `qPop:from:limit:`
lose nothing exactly when the part asked for is empty, or offset and limit do not wrap and no item
of it is empty. -/
theorem wrappers_lossless_iff (enabled : Bool) (capacity : Int32) (cs : List QueueCall)
    (table : Bytes) (offset : Int64) (count : UInt64) :
    let w := filled cs (fresh enabled capacity)
    (∃ items, Contains (cString table) w items) ∧ ∀ items, Contains (cString table) w items →
      (Lossless table offset count w items ↔
        selected items offset.toInt count.toNat = [] ∨
          Fits offset.toInt count.toNat ∧ [] ∉ selected items offset.toInt count.toNat) := by
  intro w
  obtain ⟨hw, Q, hQ⟩ := filled_stores cs (w := fresh enabled capacity) stores_empty rfl
  have hcontains := stores_contains (cString table) hQ hw
  refine ⟨⟨_, hcontains⟩, fun items hitems => ?_⟩
  rw [hitems.unique hcontains]
  exact lossless_iff table offset count hQ hw

theorem empty_item_lost :
    let w := filled [.qPush [113] []] (fresh true 1000)
    Contains [113] w [[]] ∧ ¬Lossless [113] 0 1 w [[]] := by
  intro w
  obtain ⟨hw, Q, hQ⟩ :=
    filled_stores [.qPush [113] []] (w := fresh true 1000) stores_empty rfl
  have hcontains : Contains [113] w (Q [113]).items := stores_contains [113] hQ hw
  have hlossless := lossless_iff [113] 0 1 hQ hw
  have hname : cString [113] = [113] := by decide
  obtain ⟨a, hone⟩ : ∃ a, (Q [113]).items = [a] := by
    have hsize : ((Q [113]).items.length : Int) = 1 := by
      rw [← hcontains.size]
      decide +kernel
    exact List.length_eq_one_iff.mp (by omega)
  rw [hone] at hcontains
  have hempty : a = [] := by
    have hitem := hcontains.item 0 le_rfl (Int.natCast_pos.mpr Nat.one_pos)
    have hread : (qget [113] 0 w).1 = (1, some []) := by decide +kernel
    rw [hread] at hitem
    exact (Option.some.inj (congrArg Prod.snd hitem)).symm
  rw [hempty] at hone hcontains
  rw [hname, hone] at hlossless
  exact ⟨hcontains, fun h => absurd (hlossless.mp h) (by decide)⟩

end filled

end SSDB
