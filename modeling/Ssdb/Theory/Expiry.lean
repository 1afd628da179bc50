import Ssdb.Api.Ttl
import Ssdb.Library.Trace
import Ssdb.Theory.Window

namespace SSDBImpl
open Keys

variable {w : SSDBImpl} {Z : ScoredSet} {t : Byte}

theorem del_index (hI : ScoredSet.Indexed w.ldb.data Z) (hw : w.faults = Faults.none) (key : Bytes) :
    ScoredSet.Indexed (del key t w).2.ldb.data Z := by
  rw [del_plan]
  have hd : ∀ r ∈ (delPlan key t).recs, r.OnData := by
    rw [delPlan]
    split_ifs <;> simp [Plan.recs, kvDelRecs, Rec.OnData]
  rw [Plan.run_data w _ hw hd, delPlan]
  split_ifs
  · exact hI
  · exact hI.frame none (by simp [encodeKvKey, DataType.KV, DataType.ZSET, Strings.charByte])
      (by simp [encodeKvKey, DataType.KV, DataType.ZSCORE, Strings.charByte])

theorem del_faults (hw : w.faults = Faults.none) (key : Bytes) :
    (del key t w).2.faults = Faults.none := by
  rw [del_plan]
  exact ((delPlan key t).run_answered w hw).2

end SSDBImpl

namespace ExpirationHandler
open SSDBImpl Strings ScoredSet
open HashTable (Admitted)

def stored (h : ExpirationHandler) (key : Bytes) : Option Int64 :=
  (zget EXPIRATION_LIST_KEY key h.ssdb).1.2.map int64

structure Lists (h : ExpirationHandler) (T : OrdMap Bytes Int64) : Prop where
  faults : h.ssdb.faults = Faults.none
  index : ∃ Z, Indexed h.ssdb.ldb.data Z ∧ Z EXPIRATION_LIST_KEY = T

variable {h : ExpirationHandler} {T : OrdMap Bytes Int64} {key : Bytes} {ttl now : Int64}

def Listed (key : Bytes) : Prop := 1 ≤ key.length ∧ key.length ≤ 255

theorem listed_iff : Admitted EXPIRATION_LIST_KEY key ↔ Listed key := by
  have hlist : EXPIRATION_LIST_KEY ≠ [] ∧ EXPIRATION_LIST_KEY.length ≤ Keys.SSDB_KEY_LEN_MAX := by
    decide
  rw [Admitted, Listed, Nat.one_le_iff_ne_zero, ne_eq key.length, List.length_eq_zero_iff]
  exact ⟨fun ha => ⟨ha.2.1, ha.2.2.2⟩, fun hk => ⟨hlist.1, hk.1, hlist.2, hk.2⟩⟩

namespace Lists

theorem stored (hL : Lists h T) (key : Bytes) : h.stored key = T.get key := by
  obtain ⟨Z, hI, rfl⟩ := hL.index
  rw [ExpirationHandler.stored, zget_reply hI (by rw [hL.faults]; rfl)]
  cases (Z EXPIRATION_LIST_KEY).get key with
  | none => rfl
  | some t => exact congrArg some (int64_str t)

theorem listed (hL : Lists h T) {t : Int64} (hk : T.get key = some t) : Listed key := by
  obtain ⟨Z, hI, rfl⟩ := hL.index
  exact listed_iff.mp (hI.admitted _ key (by simp [hk]))

theorem same (hL : Lists h T) {h' : ExpirationHandler} (hssdb : h'.ssdb = h.ssdb) : Lists h' T :=
  ⟨hssdb ▸ hL.faults, hssdb ▸ hL.index⟩

theorem zset (hL : Lists h T) (hkey : Listed key) (t : Int64) :
    (SSDBImpl.zset EXPIRATION_LIST_KEY key (str t) BinlogType.SYNC h.ssdb).1 ≠ -1 ∧
      ∀ h' : ExpirationHandler,
        h'.ssdb = (SSDBImpl.zset EXPIRATION_LIST_KEY key (str t) BinlogType.SYNC h.ssdb).2 →
        Lists h' (T.insert key t) := by
  obtain ⟨Z, hI, rfl⟩ := hL.index
  have ha := listed_iff.mpr hkey
  have hr := zset_result (n := EXPIRATION_LIST_KEY) (k := key) (t := BinlogType.SYNC) (str t) hI
    (by rw [hL.faults]; rfl) (by simp [hL.faults, Faults.none])
  refine ⟨?_, fun h' hssdb => ⟨?_, _, hssdb ▸ hr.index, ?_⟩⟩
  · rw [hr.reply, setReply, if_neg (not_or.mpr ⟨ha.1, ha.2.1⟩),
      if_neg (not_not_intro (show Short _ _ from ha.2.2))]
    split_ifs <;> decide
  · rw [hssdb]
    exact zset_faults _ hL.faults
  · rw [ScoredSet.set, if_pos ha, int64_str, assign, Function.update_self]

theorem zdel (hL : Lists h T) (h' : ExpirationHandler)
    (hssdb : h'.ssdb = (SSDBImpl.zdel EXPIRATION_LIST_KEY key BinlogType.SYNC h.ssdb).2) :
    Lists h' (T.erase key) := by
  obtain ⟨Z, hI, rfl⟩ := hL.index
  have hr := zdel_result (n := EXPIRATION_LIST_KEY) (k := key) (t := BinlogType.SYNC) hI
    (by rw [hL.faults]; rfl) (by simp [hL.faults, Faults.none])
  refine ⟨?_, _, hssdb ▸ hr.index, ?_⟩
  · rw [hssdb]
    exact zdel_faults hL.faults
  · rw [remove, assign, Function.update_self]

end Lists

def retimed (S : SortedSet) (key : Bytes) (t : Int64) : SortedSet :=
  if S.empty = false ∧ t ≤ S.maxScore then
    if (S.add key t).2.size > BATCH_SIZE then (S.add key t).2.popBack.2 else (S.add key t).2
  else (S.del key).2

theorem setTtl_apply (hL : Lists h T) (hkey : Listed key) (ttl now : Int64) :
    (h.setTtl key ttl now).2 = {
      ssdb := (SSDBImpl.zset EXPIRATION_LIST_KEY key (str (expired ttl now)) BinlogType.SYNC
        h.ssdb).2
      firstTimeout := if expired ttl now < h.firstTimeout then expired ttl now else h.firstTimeout
      fastKeys := retimed h.fastKeys key (expired ttl now) } := by
  have hret := (hL.zset hkey (expired ttl now)).1
  rcases hz : SSDBImpl.zset EXPIRATION_LIST_KEY key (str (expired ttl now)) BinlogType.SYNC h.ssdb
    with ⟨ret, ssdb⟩
  rw [hz] at hret
  rw [setTtl]
  simp only [hz, if_neg hret, retimed]
  split_ifs <;> rfl

theorem Lists.setTtl (hL : Lists h T) (hkey : Listed key) (ttl now : Int64) :
    Lists (h.setTtl key ttl now).2 (T.insert key (expired ttl now)) := by
  rw [setTtl_apply hL hkey]
  exact (hL.zset hkey _).2 _ rfl

theorem Lists.delTtl (hL : Lists h T) (hfirst : h.firstTimeout ≠ INT64_MAX) (key : Bytes) :
    Lists (h.delTtl key).2 (T.erase key) := by
  rw [ExpirationHandler.delTtl, if_pos hfirst]
  exact hL.zdel _ rfl

theorem scanKeys_apply (hL : Lists h T) (num : UInt64) :
    (h.scanKeys num).2 = h ∧
      (h.scanKeys num).1.rest = ((upward (ranking T)).take num.toNat).map entry := by
  obtain ⟨Z, hI, rfl⟩ := hL.index
  exact ⟨rfl, ziterator_upward hI (by decide) num.toNat⟩

theorem expireFirst_cases (h : ExpirationHandler) (now : Int64) :
    h.fastKeys.empty = true ∧ h.expireFirst now = (none, { h with firstTimeout := INT64_MAX }) ∨
      ∃ i, h.fastKeys.front = some i ∧
        (i.score ≤ now ∧ h.expireFirst now = (some i.key, {
            ssdb := (SSDBImpl.zdel EXPIRATION_LIST_KEY i.key BinlogType.SYNC
              (SSDBImpl.del i.key BinlogType.SYNC h.ssdb).2).2
            firstTimeout := i.score
            fastKeys := h.fastKeys.popFront.2 }) ∨
          ¬i.score ≤ now ∧ h.expireFirst now = (none, { h with firstTimeout := i.score })) := by
  rw [expireFirst]
  by_cases hempty : h.fastKeys.empty = true
  · exact .inl ⟨hempty, if_pos hempty⟩
  · obtain ⟨i, hi⟩ := SortedSet.front_of_nonempty (Bool.eq_false_iff.mpr hempty)
    rw [if_neg hempty, hi]
    refine .inr ⟨i, rfl, ?_⟩
    by_cases hdue : i.score ≤ now
    · exact .inl ⟨hdue, if_pos hdue⟩
    · exact .inr ⟨hdue, if_neg hdue⟩

theorem Lists.expire (hL : Lists h T) (h' : ExpirationHandler)
    (hssdb : h'.ssdb = (SSDBImpl.zdel EXPIRATION_LIST_KEY key BinlogType.SYNC
      (SSDBImpl.del key BinlogType.SYNC h.ssdb).2).2) : Lists h' (T.erase key) := by
  obtain ⟨Z, hI, hZ⟩ := hL.index
  have hdel : Lists { h with ssdb := (SSDBImpl.del key BinlogType.SYNC h.ssdb).2 } T :=
    ⟨del_faults hL.faults _, Z, del_index hI hL.faults _, hZ⟩
  exact hdel.zdel h' hssdb

def Timely (ttl now : Int64) : Prop :=
  2000000000 < now.toInt ∧ 0 ≤ ttl.toInt ∧ now.toInt + 1000 * ttl.toInt < 2 ^ 63 - 1

theorem ttl_product (ttl : Int64) :
    (ttl * 1000).toInt = (1000 * ttl.toInt).bmod (2 ^ 64) := by
  have h1000 : (1000 : Int64).toInt = 1000 := rfl
  rw [Int64.toInt_mul, h1000, mul_comm]

theorem expired_toInt (hnow : 0 ≤ now.toInt) (httl : 0 ≤ ttl.toInt)
    (hsum : now.toInt + 1000 * ttl.toInt < 2 ^ 63) :
    (expired ttl now).toInt = now.toInt + 1000 * ttl.toInt := by
  have hmul : (ttl * 1000).toInt = 1000 * ttl.toInt := by
    rw [ttl_product]
    exact Int.bmod_eq_of_le (by omega) (by omega)
  rw [expired, Int64.toInt_add, hmul]
  exact Int.bmod_eq_of_le (by omega) (by omega)

def Dated (t : Int64) : Prop := 2000000000 < t ∧ t < INT64_MAX

theorem Timely.dated (ht : Timely ttl now) : Dated (expired ttl now) := by
  obtain ⟨hnow, httl, hsum⟩ := ht
  have htime : (expired ttl now).toInt = now.toInt + 1000 * ttl.toInt :=
    expired_toInt (by omega) httl (by omega)
  have hmax : INT64_MAX.toInt = 2 ^ 63 - 1 := rfl
  have hmin : (2000000000 : Int64).toInt = 2000000000 := rfl
  rw [Dated, Int64.lt_iff_toInt_lt, Int64.lt_iff_toInt_lt, htime, hmax, hmin]
  omega

theorem Dated.loaded {t : Int64} (ht : Dated t) : loadedScore (str t) = t := by
  rw [loadedScore, int64_str, if_neg (not_lt.mpr ht.1.le)]

theorem earlier_le (t u : Int64) : (if t < u then t else u) ≤ t ∧ (if t < u then t else u) ≤ u := by
  split_ifs with hless
  · exact ⟨le_rfl, hless.le⟩
  · exact ⟨not_lt.mp hless, le_rfl⟩

theorem of_erase {l : Bytes} {t : Int64} (hl : (T.erase key).get l = some t) :
    T.get l = some t := by
  rw [OrdMap.get_erase] at hl
  split_ifs at hl
  exact hl

structure Cached (h : ExpirationHandler) (T : OrdMap Bytes Int64) : Prop where
  lists : Lists h T
  dated : ∀ key t, T.get key = some t → Dated t
  window : Window BATCH_SIZE T h.fastKeys
  first : ∀ key t, T.get key = some t → h.firstTimeout ≤ t

theorem window_retimed {S : SortedSet} (hW : Window BATCH_SIZE T S) (key : Bytes) (t : Int64) :
    Window BATCH_SIZE (T.insert key t) (retimed S key t) := by
  rw [retimed]
  split_ifs with hin hbig
  · have hadd : Covers (T.insert key t) (S.add key t).2 := hW.add hin.1 hin.2
    refine ⟨hadd.popBack (SortedSet.empty_false_iff.mpr ⟨key, t, ?_⟩), ?_⟩
    · rw [SortedSet.lookup_add, if_pos rfl]
    · have hsmall := hW.small
      have hsize := S.size_add_le key t
      rw [SortedSet.size_popBack]
      omega
  · exact ⟨hW.add hin.1 hin.2, not_lt.mp hbig⟩
  · refine ⟨hW.del fun hne => ?_, (S.size_del_le key).trans hW.small⟩
    exact le_of_lt (not_le.mp fun hle => hin ⟨hne, hle⟩)

namespace Cached

theorem new {w : SSDBImpl} (hL : Lists (.new w) T) (hT : ∀ key t, T.get key = some t → Dated t) :
    Cached (.new w) T where
  lists := hL
  dated := hT
  window := ⟨Covers.new T, Nat.zero_le _⟩
  first key t hk := (show (0 : Int64) ≤ 2000000000 by decide).trans (hT key t hk).1.le

theorem setTtl (hC : Cached h T) (hkey : Listed key) (hdated : Dated (expired ttl now)) :
    Cached (h.setTtl key ttl now).2 (T.insert key (expired ttl now)) := by
  refine ⟨hC.lists.setTtl hkey ttl now, fun l t hl => ?_, ?_, fun l t hl => ?_⟩
  · rw [OrdMap.get_insert] at hl
    split_ifs at hl
    · rw [← Option.some.inj hl]
      exact hdated
    · exact hC.dated l t hl
  · rw [setTtl_apply hC.lists hkey]
    exact window_retimed hC.window key _
  · rw [setTtl_apply hC.lists hkey]
    rw [OrdMap.get_insert] at hl
    have hfirst := earlier_le (expired ttl now) h.firstTimeout
    split_ifs at hl
    · exact hfirst.1.trans (Option.some.inj hl).le
    · exact hfirst.2.trans (hC.first l t hl)

theorem delTtl (hC : Cached h T) (key : Bytes) : ∃ T', Cached (h.delTtl key).2 T' := by
  by_cases hfirst : h.firstTimeout = INT64_MAX
  · rw [ExpirationHandler.delTtl, if_neg (not_not_intro hfirst)]
    exact ⟨T, hC⟩
  · refine ⟨T.erase key, hC.lists.delTtl hfirst key, fun l t hl => hC.dated l t (of_erase hl), ?_, ?_⟩
    · rw [ExpirationHandler.delTtl, if_pos hfirst]
      exact ⟨hC.window.erase, (SortedSet.size_del_le _ key).trans hC.window.small⟩
    · rw [ExpirationHandler.delTtl, if_pos hfirst]
      exact fun l t hl => hC.first l t (of_erase hl)

theorem load_keys {l : List Item} (hl : ∀ i ∈ l, Dated i.score) (h : ExpirationHandler) :
    (l.map entry).foldl loadKey h = { h with fastKeys := h.fastKeys.addAll l } := by
  induction l generalizing h with
  | nil => rfl
  | cons i l ih =>
    rw [List.map_cons, List.foldl_cons, ih fun j hj => hl j (by simp [hj])]
    simp only [loadKey, entry, (hl i (by simp)).loaded, SortedSet.addAll, List.foldl_cons]

theorem ranked_dated (hC : Cached h T) {i : Item} (hi : i ∈ ranking T) :
    i.key ≠ [] ∧ Dated i.score := by
  have hk := (mem_ranking T i).mp hi
  have hlen := (hC.lists.listed hk).1
  exact ⟨fun hnil => by simp [hnil] at hlen, hC.dated i.key i.score hk⟩

theorem load (hC : Cached h T) :
    h.loadExpirationKeysFromDb (UInt64.ofNat BATCH_SIZE) =
      { h with fastKeys := h.fastKeys.addAll ((ranking T).take BATCH_SIZE) } := by
  obtain ⟨hsame, hrest⟩ := scanKeys_apply hC.lists (UInt64.ofNat BATCH_SIZE)
  have hall : upward (ranking T) = ranking T := upward_all (fun i hi => (hC.ranked_dated hi).1)
    fun i hi => (hC.ranked_dated hi).2.2.ne
  rw [hall] at hrest
  rw [loadExpirationKeysFromDb]
  simp only [hsame, hrest]
  exact load_keys (fun i hi => (hC.ranked_dated (List.mem_of_mem_take hi)).2) h

theorem loaded (hC : Cached h T) :
    let h' := if h.fastKeys.empty then h.loadExpirationKeysFromDb (UInt64.ofNat BATCH_SIZE) else h
    Cached h' T ∧ (h'.fastKeys.empty = true → ∀ key, T.get key = none) := by
  intro h'
  by_cases hempty : h.fastKeys.empty = true
  · have hload : h' = { h with fastKeys := h.fastKeys.addAll ((ranking T).take BATCH_SIZE) } :=
      (if_pos hempty).trans hC.load
    rw [hload]
    exact ⟨⟨hC.lists.same rfl, hC.dated, Window.fill hempty, hC.first⟩,
      fun hstill => Window.fill_empty hempty (by decide) hstill⟩
  · have hkept : h' = h := if_neg hempty
    rw [hkept]
    exact ⟨hC, fun hstill => absurd hstill hempty⟩

theorem expireFirst (hC : Cached h T) (hfull : h.fastKeys.empty = true → ∀ key, T.get key = none)
    (now : Int64) : (∃ T', Cached (h.expireFirst now).2 T') ∧
      ∀ key, (h.expireFirst now).1 = some key →
        ∃ t, T.get key = some t ∧ t ≤ now ∧ ∀ l u, T.get l = some u → t ≤ u := by
  rcases h.expireFirst_cases now with ⟨hempty, heq⟩ | ⟨i, hi, hend⟩
  · have hnone := hfull hempty
    rw [heq]
    refine ⟨⟨T, hC.lists.same rfl, hC.dated, hC.window, fun key t hk => ?_⟩, fun key hdel => ?_⟩
    · exact absurd hk (by simp [hnone key])
    · exact absurd hdel (by simp)
  · have hleast (key : Bytes) (t : Int64) (hk : T.get key = some t) : i.score ≤ t :=
      hC.window.front_least hi hk
    rcases hend with ⟨hdue, heq⟩ | ⟨-, heq⟩
    · rw [heq]
      refine ⟨⟨T.erase i.key, hC.lists.expire _ rfl, fun key t hk => hC.dated key t (of_erase hk), ?_,
        fun key t hk => hleast key t (of_erase hk)⟩, fun key hdel => ?_⟩
      · refine ⟨hC.window.popFront hi, ?_⟩
        have hsmall := hC.window.small
        rw [SortedSet.size_popFront]
        omega
      · obtain rfl : i.key = key := Option.some.inj hdel
        exact ⟨i.score, hC.window.stored i.key i.score (SortedSet.front_mem hi), hdue, hleast⟩
    · rw [heq]
      exact ⟨⟨T, hC.lists.same rfl, hC.dated, hC.window, hleast⟩,
        fun key hdel => absurd hdel (by simp)⟩

theorem expireLoop (hC : Cached h T) (now : Int64) : (∃ T', Cached (h.expireLoop now).2 T') ∧
    ∀ key, (h.expireLoop now).1 = some key →
      ∃ t, T.get key = some t ∧ t ≤ now ∧ ∀ l u, T.get l = some u → t ≤ u :=
  hC.loaded.1.expireFirst hC.loaded.2 now

end Cached

def Proper : TtlCall → Prop
  | .setTtl key ttl now => Listed key ∧ Timely ttl now
  | .delTtl key => Listed key
  | .expireLoop now => 2000000000 < now.toInt

instance (c : TtlCall) : Decidable (Proper c) := by
  unfold Proper Listed Timely
  split <;> infer_instance

theorem cached_exec {c : TtlCall} (hc : Proper c) (hC : ∃ T, Cached h T) :
    ∃ T, Cached (c.exec h) T := by
  obtain ⟨T, hC⟩ := hC
  cases c with
  | setTtl key ttl now => exact ⟨_, hC.setTtl hc.1 hc.2.dated⟩
  | delTtl key => exact hC.delTtl key
  | expireLoop now => exact (hC.expireLoop now).1

theorem fresh_stored (key : Bytes) : (new (fresh false 0)).stored key = none := by
  have hL : Lists (new (fresh false 0)) OrdMap.empty := ⟨rfl, _, (fresh_holds false 0).index, rfl⟩
  rw [hL.stored, OrdMap.get_empty]

/-- In a run of whole calls, from a list of times that `set_ttl` could have stored: `fast_keys`
holds at most a batch of the entries of the list, none of them after one that it leaves out,
`first_timeout` is not after any of them, and what `expire_loop` deletes is due and the first. -/
theorem fast_keys_window {w : SSDBImpl} {Z : ScoredSet} (hw : w.faults = Faults.none)
    (hI : Indexed w.ldb.data Z) (hdated : ∀ key t, (new w).stored key = some t → Dated t)
    (cs : List TtlCall) (hcs : ∀ c ∈ cs, Proper c) :
    let h := Trace.run TtlCall.exec cs (new w)
    h.fastKeys.size ≤ 1000 ∧
      (∀ key t, h.fastKeys.lookup key = some t → h.stored key = some t) ∧
      (h.fastKeys.empty = false → ∀ key t, h.stored key = some t → h.fastKeys.lookup key = none →
        h.fastKeys.maxScore ≤ t) ∧
      (∀ key t, h.stored key = some t → h.firstTimeout ≤ t) ∧
      ∀ now key, (h.expireLoop now).1 = some key →
        ∃ t, h.stored key = some t ∧ t ≤ now ∧ ∀ l u, h.stored l = some u → t ≤ u := by
  intro h
  have hL : Lists (new w) (Z EXPIRATION_LIST_KEY) := ⟨hw, Z, hI, rfl⟩
  have hstart : ∃ T, Cached (new w) T :=
    ⟨_, Cached.new hL fun key t hk => hdated key t ((hL.stored key).trans hk)⟩
  obtain ⟨T, hC⟩ : ∃ T, Cached h T :=
    (Trace.along_of_forall hcs).invariant (J := fun h => ∃ T, Cached h T)
      (fun _ _ hc hC => cached_exec hc hC) hstart
  have hstored := hC.lists.stored
  simp only [hstored]
  refine ⟨hC.window.small, hC.window.stored, fun hne key t hk hout => ?_, hC.first,
    fun now => (hC.expireLoop now).2⟩
  obtain ⟨l, hl⟩ := SortedSet.maxScore_mem hne
  exact hC.window.early key t hk hout l _ hl

theorem fast_keys_window_expired :
    let h := Trace.run TtlCall.exec
      [.setTtl [107] 1 3000000000, .setTtl [108] 0 3000000000, .expireLoop 3000000500]
      (new (fresh false 0))
    h.fastKeys.size ≤ 1000 ∧ (∀ key t, h.fastKeys.lookup key = some t → h.stored key = some t) ∧
      (h.fastKeys.empty = false → ∀ key t, h.stored key = some t → h.fastKeys.lookup key = none →
        h.fastKeys.maxScore ≤ t) ∧
      (∀ key t, h.stored key = some t → h.firstTimeout ≤ t) ∧
      ∀ now key, (h.expireLoop now).1 = some key →
        ∃ t, h.stored key = some t ∧ t ≤ now ∧ ∀ l u, h.stored l = some u → t ≤ u :=
  fast_keys_window rfl (fresh_holds false 0).index
    (fun key t hk => absurd hk (by rw [fresh_stored]; simp)) _ fun c hc => by
      simp only [List.mem_cons, List.not_mem_nil, or_false] at hc
      rcases hc with rfl | rfl | rfl <;> decide

theorem Lists.zset_other (hL : Lists h T) (l : Bytes) (t : Int64) : ∃ T' : OrdMap Bytes Int64,
    (∀ k, k ≠ l → T'.get k = T.get k) ∧ ∀ h' : ExpirationHandler,
      h'.ssdb = (SSDBImpl.zset EXPIRATION_LIST_KEY l (str t) BinlogType.SYNC h.ssdb).2 →
      Lists h' T' := by
  by_cases hl : Listed l
  · exact ⟨T.insert l t, fun k hk => OrdMap.get_insert_ne T t hk, (hL.zset hl t).2⟩
  · obtain ⟨Z, hI, hZ⟩ := hL.index
    have hr := zset_result (n := EXPIRATION_LIST_KEY) (k := l) (t := BinlogType.SYNC) (str t) hI
      (by rw [hL.faults]; rfl) (by simp [hL.faults, Faults.none])
    have hsame : ScoredSet.set Z EXPIRATION_LIST_KEY l (int64 (str t)) = Z :=
      if_neg (mt listed_iff.mp hl)
    have hindex := hr.index
    rw [hsame] at hindex
    refine ⟨T, fun _ _ => rfl, fun h' hssdb => ⟨?_, Z, ?_, hZ⟩⟩
    · rw [hssdb]
      exact zset_faults _ hL.faults
    · rw [hssdb]
      exact hindex

theorem setTtl_parts (h : ExpirationHandler) (l : Bytes) (ttl now : Int64) :
    (h.setTtl l ttl now).2.ssdb =
        (zset EXPIRATION_LIST_KEY l (str (expired ttl now)) BinlogType.SYNC h.ssdb).2 ∧
      ((h.setTtl l ttl now).2.fastKeys = h.fastKeys ∨
        (h.setTtl l ttl now).2.fastKeys = retimed h.fastKeys l (expired ttl now)) := by
  rcases hz : zset EXPIRATION_LIST_KEY l (str (expired ttl now)) BinlogType.SYNC h.ssdb
    with ⟨ret, ssdb⟩
  rw [setTtl]
  simp only [hz, retimed]
  split_ifs <;> simp

end ExpirationHandler
