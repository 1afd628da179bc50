import Ssdb.Theory.Acknowledged

namespace Strings

def decimalInt (s : Bytes) : Option Int :=
  if (sign s).2 ≠ [] ∧ (sign s).2.all isdigit then
    some (if (sign s).1 then -(decimal (sign s).2 : Int) else decimal (sign s).2)
  else none

def checked (v : Int) : Option Int64 :=
  if Int64.minValue.toInt ≤ v ∧ v ≤ Int64.maxValue.toInt then some (Int64.ofInt v) else none

def counted : Option Bytes → Option Int64
  | none => some 0
  | some s => (decimalInt s).bind checked

def total (stored : Option Bytes) (amount : Int64) : Option Int64 :=
  (counted stored).bind fun v => checked (v.toInt + amount.toInt)

theorem checked_some {v : Int} {n : Int64} (h : checked v = some n) :
    Int64.ofInt v = n ∧ clamp v = n := by
  rw [checked] at h
  split_ifs at h with hin
  have hn : Int64.ofInt v = n := Option.some.inj h
  refine ⟨hn, ?_⟩
  rw [clamp, if_neg (not_lt.mpr hin.1), if_neg (not_lt.mpr hin.2), hn]

theorem checked_toInt (v : Int64) : checked v.toInt = some v := by
  have hlo := v.le_toInt
  have hhi := v.toInt_lt
  rw [checked, if_pos, Int64.ofInt_toInt]
  rw [Int64.toInt_minValue, Int64.toInt_maxValue]
  omega

theorem checked_add {a b n : Int64} (h : checked (a.toInt + b.toInt) = some n) : a + b = n := by
  have hsum := (checked_some h).1
  rwa [Int64.ofInt_add, Int64.ofInt_toInt, Int64.ofInt_toInt] at hsum

theorem strToInt64_decimal {s : Bytes} {v : Int} (h : decimalInt s = some v) :
    strToInt64 s = (clamp v, true) := by
  rw [decimalInt] at h
  split_ifs at h with hds hneg
  all_goals
    obtain ⟨hne, hall⟩ := hds
    have hspace : s.dropWhile isspace = s := by
      cases s with
      | nil => rfl
      | cons c r =>
        have hc : isspace c = false := by
          simp only [sign] at hne hall
          split_ifs at hne hall with hminus hplus
          · rw [hminus]
            decide
          · rw [hplus]
            decide
          · exact isdigit_not_space (List.all_eq_true.mp hall c List.mem_cons_self)
        rw [List.dropWhile_cons, hc]
        rfl
    have hdigits : (sign s).2.takeWhile isdigit = (sign s).2 :=
      List.takeWhile_eq_self_iff.mpr (List.all_eq_true.mp hall)
    have hv := Option.some.inj h
    simp only [strToInt64, strtoll, hspace, hdigits, if_neg hne, hneg, Nat.sub_self, Nat.sub_zero,
      decide_true]
    rw [← hv]
    rfl

theorem total_none (amount : Int64) : total none amount = some amount := by
  have h : checked ((0 : Int64).toInt + amount.toInt) = some amount := by
    rw [Int64.toInt_zero, zero_add, checked_toInt]
  exact h

theorem total_some {s : Bytes} {amount n : Int64} (h : total (some s) amount = some n) :
    (strToInt64 s).2 = true ∧ (strToInt64 s).1 + amount = n := by
  obtain ⟨v, hv, hsum⟩ := Option.bind_eq_some_iff.mp h
  obtain ⟨i, hi, hin⟩ := Option.bind_eq_some_iff.mp hv
  rw [strToInt64_decimal hi, (checked_some hin).2]
  exact ⟨rfl, checked_add hsum⟩

end Strings

structure Counted where
  reply : Int × Option Int64
  read : Int × Option Bytes
  ldb : LevelDB

namespace Counted
open Strings

def Reports (o : Counted) (sum : Int64) : Prop := o.reply = (1, some sum) ∧ o.read = (1, some (str sum))

def Refuses (o : Counted) (before : LevelDB) : Prop := o.reply.1 = 0 ∧ o.ldb = before

def Exact (o : Counted) (before : LevelDB) (stored : Option Bytes) (amount : Int64) : Prop :=
  match total stored amount with
  | some sum => o.Reports sum
  | none => o.Refuses before

variable {o : Counted} {before : LevelDB} {stored : Option Bytes} {amount : Int64}

theorem not_refuses {sum : Int64} (h : o.Reports sum) : ¬o.Refuses before := by
  rintro ⟨hreply, -⟩
  rw [h.1] at hreply
  exact absurd hreply one_ne_zero

theorem exact_iff_total
    (h : o.Reports ((stored.map fun s => (strToInt64 s).1 + amount).getD amount)) :
    o.Exact before stored amount ↔ total stored amount ≠ none := by
  rw [Exact]
  cases htotal : total stored amount with
  | none => exact iff_of_false (not_refuses h) (not_not.mpr rfl)
  | some sum =>
    refine iff_of_true ?_ (by simp)
    cases stored with
    | none =>
      have hsum : amount = sum := by
        rw [total_none] at htotal
        exact Option.some.inj htotal
      exact hsum ▸ h
    | some s => exact (total_some htotal).2 ▸ h

theorem exact_iff_whole
    (hwhole : (∀ s, stored = some s → (strToInt64 s).2 = true) →
      o.Reports ((stored.map fun s => (strToInt64 s).1 + amount).getD amount))
    (hpart : ∀ s, stored = some s → (strToInt64 s).2 = false → o.Refuses before) :
    o.Exact before stored amount ↔
      ((∀ s, stored = some s → (strToInt64 s).2 = true) → total stored amount ≠ none) := by
  by_cases hall : ∀ s, stored = some s → (strToInt64 s).2 = true
  · rw [exact_iff_total (hwhole hall)]
    exact ⟨fun h _ => h, fun h => h hall⟩
  · refine iff_of_true ?_ fun h => absurd h hall
    obtain ⟨s, hs⟩ := not_forall.mp hall
    obtain ⟨hstored, hnot⟩ := Classical.not_imp.mp hs
    have hfalse : (strToInt64 s).2 = false := Bool.eq_false_iff.mpr hnot
    have htotal : total stored amount = none := by
      by_contra hne
      obtain ⟨sum, hsum⟩ := Option.ne_none_iff_exists'.mp hne
      rw [hstored] at hsum
      exact hnot (total_some hsum).1
    rw [Exact, htotal]
    exact hpart s hstored hfalse

end Counted

namespace SSDBImpl
open Keys Strings
open HashTable (Admitted)

variable {w : SSDBImpl} {n k : Bytes} {amount : Int64} {t : Byte}

def incrCounted (key : Bytes) (amount : Int64) (logType : Byte) (w : SSDBImpl) : Counted :=
  let r := incr key amount logType w
  ⟨r.1, (get key r.2).1, r.2.ldb⟩

def hincrCounted (name key : Bytes) (amount : Int64) (logType : Byte) (w : SSDBImpl) : Counted :=
  let r := hincr name key amount logType w
  ⟨r.1, (hget name key r.2).1, r.2.ldb⟩

def zincrCounted (name key : Bytes) (amount : Int64) (logType : Byte) (w : SSDBImpl) : Counted :=
  let r := zincr name key amount logType w
  ⟨r.1, (zget name key r.2).1, r.2.ldb⟩

theorem store_reports (hw : w.faults = Faults.none) (key : Bytes) (sum : Int64) :
    let r := (storePlan key sum t).run w
    Counted.Reports ⟨r.1, (get key r.2).1, r.2.ldb⟩ sum := by
  intro r
  have hok : w.faults.write.head? ≠ some true := by simp [hw, Faults.none]
  have hrun : r = ((1, some sum), w.committed (kvRecs key (str sum) t)) :=
    Plan.run_commit w _ _ _ hok
  have hkey := kvKey_data key
  have hrecs : ∀ r ∈ kvRecs key (str sum) t, r.OnData := by
    simp [kvRecs, Rec.OnData, hkey]
  have hread : (w.committed (kvRecs key (str sum) t)).ldb.table.get (encodeKvKey key) =
      some (str sum) := by
    rw [← LevelDB.data_eq hkey, w.committed_data hrecs]
    simp [kvRecs, Rec.effect]
  have hget : (w.committed (kvRecs key (str sum) t)).faults.get = [] := by
    simp [SSDBImpl.committed, hw, Faults.none]
  rw [hrun]
  refine ⟨rfl, ?_⟩
  rw [get, getRecord_apply _ hget, LevelDB.readRecord, hread]

theorem incr_exact (hw : w.faults = Faults.none) (hk : k.length ≤ SSDB_KEY_LEN_MAX) :
    (incrCounted k amount t w).Exact w.ldb (w.ldb.table.get (encodeKvKey k)) amount ↔
      ((∀ s, w.ldb.table.get (encodeKvKey k) = some s → (strToInt64 s).2 = true) →
        total (w.ldb.table.get (encodeKvKey k)) amount ≠ none) := by
  have hplan : incr k amount t w = (incrPlan w.ldb k amount t).run w :=
    incr_plan k amount t (by rw [hw]; rfl)
  rw [incrPlan, if_neg (not_lt.mpr hk)] at hplan
  refine Counted.exact_iff_whole (fun hwhole => ?_) fun s hs hnot => ?_
  · rw [incrCounted, hplan]
    cases hold : w.ldb.table.get (encodeKvKey k) with
    | none => exact store_reports hw k amount
    | some s =>
      simp only [hwhole s hold, if_true]
      exact store_reports hw k _
  · rw [incrCounted, hplan, hs]
    simp only [hnot, Bool.false_eq_true, if_false]
    exact ⟨rfl, rfl⟩

theorem incrReply_inserted (sum : Int64) (dbkey : Bytes) :
    incrReply sum (w.inserted dbkey) = (1, some sum) := by
  rw [incrReply, inserted]
  split_ifs <;> first | contradiction | rfl

theorem hset_reports (hw : w.faults = Faults.none) (ha : Admitted n k) (sum : Int64) :
    let r := ((hsetPlan w.ldb n k (str sum) t).map (incrReply sum)).run w
    Counted.Reports ⟨r.1, (hget n k r.2).1, r.2.ldb⟩ sum := by
  have hplan := hset_plan n k (str sum) t (w := w) (by rw [hw]; rfl)
  obtain ⟨hret, hread⟩ := hset_stored hw ha (str sum) t
  have hfaults : (hset n k (str sum) t w).2.faults.get = [] := by
    rw [hplan, ((hsetPlan w.ldb n k (str sum) t).run_answered w hw).2]
    rfl
  simp only [Plan.run_map, ← hplan, hret, incrReply_inserted]
  refine ⟨rfl, ?_⟩
  rw [hget, getRecord_apply _ hfaults, LevelDB.readRecord, hread]

theorem hincr_exact (hw : w.faults = Faults.none) (ha : Admitted n k) :
    (hincrCounted n k amount t w).Exact w.ldb (w.ldb.table.get (encodeHashKey n k)) amount ↔
      ((∀ s, w.ldb.table.get (encodeHashKey n k) = some s → (strToInt64 s).2 = true) →
        total (w.ldb.table.get (encodeHashKey n k)) amount ≠ none) := by
  have hplan : hincr n k amount t w = (hincrPlan w.ldb n k amount t).run w :=
    hincr_plan n k amount t (by rw [hw]; rfl)
  rw [hincrPlan] at hplan
  refine Counted.exact_iff_whole (fun hwhole => ?_) fun s hs hnot => ?_
  · rw [hincrCounted, hplan]
    cases hold : w.ldb.table.get (encodeHashKey n k) with
    | none => exact hset_reports hw ha amount
    | some s =>
      simp only [hwhole s hold, if_true]
      exact hset_reports hw ha _
  · rw [hincrCounted, hplan, hs]
    simp only [hnot, Bool.false_eq_true, if_false]
    exact ⟨rfl, rfl⟩

theorem zincr_exact (hw : w.faults = Faults.none) (ha : Admitted n k) :
    (zincrCounted n k amount t w).Exact w.ldb (w.ldb.table.get (encodeZsetKey n k)) amount ↔
      total (w.ldb.table.get (encodeZsetKey n k)) amount ≠ none := by
  have hsum : ((w.ldb.table.get (encodeZsetKey n k)).map fun s => (strToInt64 s).1 + amount).getD
      amount = zincrSum w.ldb n k amount := by
    rw [zincrSum]
    cases w.ldb.table.get (encodeZsetKey n k) <;> rfl
  refine Counted.exact_iff_total ?_
  obtain ⟨hret, hread⟩ := zset_stored hw ha (str (zincrSum w.ldb n k amount)) t
  rw [hsum, zincrCounted, zincr_zset _ _ _ _ hw, hret, incrReply_inserted]
  refine ⟨rfl, ?_⟩
  rw [zget_found (zset_faults hw) hread, filterScore, int64_str]

/-- A counter is exact unless `strtoll` reads the stored text to its end although it is no number of
`int64_t`, or the sum leaves `int64_t`; `zincr` does not ask how far `strtoll` read. -/
theorem counters_exact_iff (hw : w.faults = Faults.none) (name key : Bytes)
    (hname : name ≠ [] ∧ name.length ≤ SSDB_KEY_LEN_MAX)
    (hkey : key ≠ [] ∧ key.length ≤ SSDB_KEY_LEN_MAX) (amount : Int64) (logType : Byte) :
    let Whole (stored : Option Bytes) := ∀ s, stored = some s → (strToInt64 s).2 = true
    let kv := w.ldb.table.get (encodeKvKey key)
    let field := w.ldb.table.get (encodeHashKey name key)
    let score := w.ldb.table.get (encodeZsetKey name key)
    ((incrCounted key amount logType w).Exact w.ldb kv amount ↔
        (Whole kv → total kv amount ≠ none)) ∧
      ((hincrCounted name key amount logType w).Exact w.ldb field amount ↔
        (Whole field → total field amount ≠ none)) ∧
      ((zincrCounted name key amount logType w).Exact w.ldb score amount ↔
        total score amount ≠ none) := by
  intro Whole kv field score
  have ha : Admitted name key := ⟨hname.1, hkey.1, hname.2, hkey.2⟩
  exact ⟨incr_exact hw hkey.2, hincr_exact hw ha, zincr_exact hw ha⟩

theorem counters_exact_iff_forty_one :
    let w := (set [99] (asBytes "41") 1 (fresh true 1000)).2
    (incrCounted [99] 1 1 w).Exact w.ldb (w.ldb.table.get (encodeKvKey [99])) 1 := by
  intro w
  exact (counters_exact_iff (w := w) (by decide) [110] [99] (by decide) (by decide) 1 1).1.mpr
    fun _ => by decide +kernel

theorem saturated_counter :
    let w := (set [99] (asBytes "9223372036854775808") 1 (fresh true 1000)).2
    total (w.ldb.table.get (encodeKvKey [99])) 0 = none ∧
      (incr [99] 0 1 w).1 = (1, some 9223372036854775807) := by
  decide +kernel

end SSDBImpl
