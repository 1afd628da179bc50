import Ssdb.Theory.Wakeups

namespace ExpirationHandler
open SSDBImpl Strings ScoredSet

variable {h : ExpirationHandler} {T : OrdMap Bytes Int64} {key : Bytes} {t now ttl : Int64}

theorem remaining_iff (httl : 0 ≤ ttl.toInt) (now : Int64) :
    (expired ttl now - now) / 1000 = ttl ↔ 1000 * ttl.toInt < 2 ^ 63 := by
  have hsub : expired ttl now - now = ttl * 1000 := by
    rw [expired]
    grind
  have h1000 : (1000 : Int64).toInt = 1000 := rfl
  have hlow := (ttl * 1000).le_toInt
  have hhigh := (ttl * 1000).toInt_lt
  have hmul := ttl_product ttl
  have hdivmod := Int.mul_tdiv_add_tmod (ttl * 1000).toInt 1000
  have hrem := Int.tmod_lt_of_pos (ttl * 1000).toInt (by decide : (0 : Int) < 1000)
  have hrem' := Int.lt_tmod_of_pos (ttl * 1000).toInt (by decide : (0 : Int) < 1000)
  have hdiv : (ttl * 1000 / 1000).toInt = (ttl * 1000).toInt.tdiv 1000 := by
    rw [Int64.toInt_div, h1000, Int.bmod_eq_of_le (by omega) (by omega)]
  rw [hsub, ← Int64.toInt_inj, hdiv]
  constructor
  · intro heq
    -- the product and its wrapped value differ by a multiple of `2 ^ 64`, and by a remainder
    rw [Int.bmod_def] at hmul
    split_ifs at hmul
    · omega
    · omega
  · intro hfits
    rw [hmul, Int.bmod_eq_of_le (by omega) (by omega), Int.mul_tdiv_cancel_left _ (by omega)]

theorem getTtl_stored (hL : Lists h T) (hk : T.get key = some t) (now : Int64) :
    h.getTtl key now = (t - now) / 1000 := by
  obtain ⟨Z, hI, rfl⟩ := hL.index
  have hreply := zget_reply hI (by rw [hL.faults]; rfl) EXPIRATION_LIST_KEY key
  rw [hk] at hreply
  rw [getTtl]
  rcases hz : zget EXPIRATION_LIST_KEY key h.ssdb with ⟨⟨found, score⟩, w⟩
  rw [hz] at hreply
  obtain ⟨rfl, rfl⟩ := Prod.mk.inj hreply
  simp only [if_true, Option.getD_some, int64_str]

theorem setTtl_reply (hL : Lists h T) (hkey : Listed key) (ttl now : Int64) :
    (h.setTtl key ttl now).1 = 0 := by
  have hret := (hL.zset hkey (expired ttl now)).1
  rcases hz : SSDBImpl.zset EXPIRATION_LIST_KEY key (str (expired ttl now)) BinlogType.SYNC h.ssdb
    with ⟨ret, ssdb⟩
  rw [hz] at hret
  rw [setTtl]
  simp only [hz, if_neg hret]
  split_ifs <;> rfl

end ExpirationHandler

namespace Expiry
open ExpirationHandler SSDBImpl Strings ScoredSet

variable {s : Expiry} {e : ExpiryStep} {T : OrdMap Bytes Int64} {key : Bytes} {t : Int64}

def Leaves (key : Bytes) (e : ExpiryStep) (s : Expiry) : Prop :=
  match e with
  | .clock now => s.now ≤ now
  | .setTtl l _ => l ≠ key
  | .delTtl l => l ≠ key
  | .thread => True

def NotStale (key : Bytes) (t : Int) : Phase → Prop
  | .load it => ∀ e ∈ it.rest, e.1 = key → t ≤ (loadedScore e.2).toInt
  | _ => True

structure Timed (s : Expiry) (key : Bytes) (t : Int64) : Prop where
  lists : ∃ T, Lists s.handler T ∧ T.get key = some t
  cached : ∀ u, s.handler.fastKeys.lookup key = some u → t ≤ u
  scanned : NotStale key t.toInt s.phase

theorem le_loadedScore (ht : 0 ≤ t.toInt) : t ≤ loadedScore (str t) := by
  rw [loadedScore, int64_str]
  split_ifs with hold
  · have hbound : t.toInt < 2000000000 := Int64.lt_iff_toInt_lt.mp hold
    have hmul := ttl_product t
    rw [Int.bmod_eq_of_le (by omega) (by omega)] at hmul
    rw [Int64.le_iff_toInt_le, hmul]
    omega
  · exact le_rfl

theorem retimed_cached {S : SortedSet} {l : Bytes} {u : Int64} (hl : l ≠ key)
    (h : ∀ v, S.lookup key = some v → t ≤ v) :
    ∀ v, (retimed S l u).lookup key = some v → t ≤ v := by
  intro v hv
  rcases lookup_retimed hv with ⟨rfl, -⟩ | ⟨-, hv⟩
  · exact absurd rfl hl
  · exact h v hv

namespace Timed

theorem setTtl (h : Timed s key t) {l : Bytes} (hl : l ≠ key) (ttl : Int64) :
    Timed (s.step (.setTtl l ttl)) key t := by
  obtain ⟨T, hL, hk⟩ := h.lists
  obtain ⟨T', hT', hlists⟩ := hL.zset_other l (expired ttl s.now)
  obtain ⟨hssdb, hkeys⟩ := s.handler.setTtl_parts l ttl s.now
  refine ⟨⟨T', hlists _ hssdb, (hT' key (Ne.symm hl)).trans hk⟩, ?_, h.scanned⟩
  rw [Expiry.step]
  rcases hkeys with hkeys | hkeys
  · rw [hkeys]
    exact h.cached
  · rw [hkeys]
    exact retimed_cached hl h.cached

theorem delTtl (h : Timed s key t) {l : Bytes} (hl : l ≠ key) :
    Timed (s.step (.delTtl l)) key t := by
  obtain ⟨T, hL, hk⟩ := h.lists
  by_cases hfirst : s.handler.firstTimeout = INT64_MAX
  · rw [Expiry.step, ExpirationHandler.delTtl, if_neg (not_not_intro hfirst)]
    exact ⟨⟨T, hL, hk⟩, h.cached, h.scanned⟩
  · refine ⟨⟨T.erase l, hL.delTtl hfirst l, (OrdMap.get_erase_ne T (Ne.symm hl)).trans hk⟩, ?_,
      h.scanned⟩
    rw [Expiry.step, ExpirationHandler.delTtl, if_pos hfirst]
    intro u hu
    rw [SortedSet.lookup_del, if_neg (Ne.symm hl)] at hu
    exact h.cached u hu

theorem loadKey (h : Timed s key t) {it it' : ZIterator} (hphase : s.phase = .load it)
    {e : Bytes × Bytes} (hrest : it.rest = e :: it'.rest) :
    Timed ⟨s.handler.loadKey e, s.now, .load it'⟩ key t := by
  have hscanned := h.scanned
  rw [hphase] at hscanned
  obtain ⟨T, hL, hk⟩ := h.lists
  refine ⟨⟨T, hL.same rfl, hk⟩, fun u hu => ?_, fun e' he' => hscanned e' (by simp [hrest, he'])⟩
  rw [ExpirationHandler.loadKey, SortedSet.lookup_add] at hu
  split_ifs at hu with hsame
  · rw [← Option.some.inj hu, Int64.le_iff_toInt_le]
    exact hscanned e (by simp [hrest]) hsame.symm
  · exact h.cached u hu

theorem scan (h : Timed s key t) (ht : 0 ≤ t.toInt) :
    Timed ⟨(s.handler.scanKeys (UInt64.ofNat BATCH_SIZE)).2, s.now,
      .load (s.handler.scanKeys (UInt64.ofNat BATCH_SIZE)).1⟩ key t := by
  obtain ⟨T, hL, hk⟩ := h.lists
  obtain ⟨hsame, hrest⟩ := scanKeys_apply hL (UInt64.ofNat BATCH_SIZE)
  rw [hsame]
  refine ⟨⟨T, hL, hk⟩, h.cached, fun e he hkey => ?_⟩
  rw [hrest] at he
  obtain ⟨i, hi, rfl⟩ := List.mem_map.mp he
  have hi' := (mem_ranking T i).mp (List.mem_filter.mp (List.mem_of_mem_take hi)).1
  have hscore : i.score = t := by
    rw [show i.key = key from hkey, hk] at hi'
    exact (Option.some.inj hi').symm
  rw [entry, hscore]
  exact Int64.le_iff_toInt_le.mp (le_loadedScore ht)

theorem expireFirst (h : Timed s key t) (hnow : s.now < t) :
    (s.handler.expireFirst s.now).1 ≠ some key ∧
      Timed ⟨(s.handler.expireFirst s.now).2, s.now, .head⟩ key t := by
  obtain ⟨T, hL, hk⟩ := h.lists
  rcases s.handler.expireFirst_cases s.now with ⟨-, heq⟩ | ⟨i, hi, ⟨hdue, heq⟩ | ⟨-, heq⟩⟩
  · rw [heq]
    exact ⟨by simp, ⟨T, hL.same rfl, hk⟩, h.cached, trivial⟩
  · have hother : key ≠ i.key := by
      rintro rfl
      exact absurd (h.cached i.score (SortedSet.front_mem hi)) (not_le.mpr (hdue.trans_lt hnow))
    rw [heq]
    refine ⟨fun hdel => hother (Option.some.inj hdel).symm,
      ⟨T.erase i.key, hL.expire _ rfl, (OrdMap.get_erase_ne T hother).trans hk⟩, fun u hu => ?_, trivial⟩
    rw [SortedSet.lookup_popFront hi, if_neg hother] at hu
    exact h.cached u hu
  · rw [heq]
    exact ⟨by simp, ⟨T, hL.same rfl, hk⟩, h.cached, trivial⟩

theorem thread (h : Timed s key t) (ht : 0 ≤ t.toInt) (hnow : s.now < t) :
    Timed s.threadFunc key t := by
  rcases hphase : s.phase with _ | _ | _ | it | _
  · rw [threadFunc, hphase]
    dsimp only
    split_ifs
    · exact h
    · exact ⟨h.lists, h.cached, trivial⟩
  · rw [threadFunc, hphase]
    dsimp only
    split_ifs
    · exact ⟨h.lists, h.cached, trivial⟩
    · exact ⟨h.lists, h.cached, trivial⟩
  · rw [threadFunc, hphase]
    exact h.scan ht
  · rw [threadFunc, hphase]
    dsimp only
    rcases it.next_rest with ⟨-, hnext⟩ | ⟨e, l, it', hrest, hnext, hitem, hleft⟩
    · rcases hit : it.next with ⟨more, it'⟩
      rw [hit] at hnext
      obtain rfl : more = false := hnext
      exact ⟨h.lists, h.cached, trivial⟩
    · rw [hnext]
      dsimp only
      rw [hitem]
      exact h.loadKey hphase (by rw [hrest, hleft])
  · rw [threadFunc, hphase]
    exact (h.expireFirst hnow).2

theorem step (h : Timed s key t) (ht : 0 ≤ t.toInt) (hnow : s.now < t) (he : Leaves key e s) :
    Timed (s.step e) key t := by
  cases e with
  | clock now => exact ⟨h.lists, h.cached, h.scanned⟩
  | setTtl l ttl => exact h.setTtl he ttl
  | delTtl l => exact h.delTtl he
  | thread => exact h.thread ht hnow

theorem deletes (h : Timed s key t) (hnow : s.now < t) : s.deletes ≠ some key := by
  rw [Expiry.deletes]
  split
  · exact (h.expireFirst hnow).1
  · simp

end Timed

theorem lists_run {w : SSDBImpl} {Z : ScoredSet} (hw : w.faults = Faults.none)
    (hI : Indexed w.ldb.data Z) (now : Int64) (es : List ExpiryStep) :
    ∃ T, Lists (Trace.run step es (new w now)).handler T := by
  have hall : Trace.Along step (fun _ _ => True) es (new w now) :=
    Trace.along_of_forall fun _ _ => trivial
  exact hall.invariant (J := fun s : Expiry => ∃ T, Lists s.handler T)
    (fun e _ _ hs => lists_step e hs) ⟨_, hw, Z, hI, rfl⟩

def Lasts (s : Expiry) (key : Bytes) (ttl : Int64) : Prop :=
  ttl = 0 ∨ (0 ≤ s.now.toInt + 1000 * ttl.toInt ∧ s.now.toInt + 1000 * ttl.toInt < 2 ^ 63 ∧
    NotStale key (s.now.toInt + 1000 * ttl.toInt) s.phase)

theorem timed_set {ttl : Int64} (hL : ∃ T, Lists s.handler T) (hkey : Listed key)
    (ht : (expired ttl s.now).toInt = s.now.toInt + 1000 * ttl.toInt)
    (hscan : NotStale key (s.now.toInt + 1000 * ttl.toInt) s.phase) :
    Timed (s.step (.setTtl key ttl)) key (expired ttl s.now) := by
  obtain ⟨T, hL⟩ := hL
  refine ⟨⟨_, hL.setTtl hkey ttl s.now, OrdMap.get_insert_self T key _⟩, fun u hu => ?_, ?_⟩
  · rw [step, setTtl_apply hL hkey] at hu
    rcases lookup_retimed hu with ⟨-, rfl⟩ | ⟨hne, -⟩
    · exact le_rfl
    · exact absurd rfl hne
  · rw [ht]
    exact hscan

theorem now_step (he : Leaves key e s) : s.now ≤ (s.step e).now := by
  cases e with
  | clock now => exact he
  | setTtl l ttl => exact le_rfl
  | delTtl l => exact le_rfl
  | thread =>
    obtain ⟨h, now, phase⟩ := s
    obtain ⟨phase', ⟨-, hnext⟩ | ⟨it, it', -, -, hnext⟩ | ⟨-, hnext⟩⟩ := threadFunc_cases h now phase
    all_goals
      rw [step, hnext]

theorem now_run {es : List ExpiryStep} (hes : Trace.Along step (Leaves key) es s) :
    s.now ≤ (Trace.run step es s).now := by
  have hstep : ∀ e s', Leaves key e s' → s.now ≤ s'.now → s.now ≤ (step e s').now :=
    fun e s' he hs => hs.trans (now_step he)
  exact hes.invariant hstep le_rfl

theorem timed_run (h : Timed s key t) (ht : 0 ≤ t.toInt) {es : List ExpiryStep}
    (hes : Trace.Along step (Leaves key) es s) :
    t ≤ (Trace.run step es s).now ∨ Timed (Trace.run step es s) key t := by
  have hstep : ∀ e s, Leaves key e s → t ≤ s.now ∨ Timed s key t →
      t ≤ (step e s).now ∨ Timed (step e s) key t := by
    intro e s he hs
    rcases le_or_gt t s.now with hnow | hnow
    · exact .inl (hnow.trans (now_step he))
    · exact .inr ((hs.resolve_left (not_le.mpr hnow)).step ht hnow he)
  exact hes.invariant hstep (.inr h)

/-- In any state of a run: a time to live that is set is read back when its milliseconds fit, and
the key outlasts it, whatever comes, when the sum with the clock fits too. -/
theorem ttl_round_trip {w : SSDBImpl} {Z : ScoredSet} (hw : w.faults = Faults.none)
    (hI : Indexed w.ldb.data Z) (now : Int64) (es : List ExpiryStep) {key : Bytes}
    (hkey : Listed key) {ttl : Int64} (httl : 0 ≤ ttl.toInt) :
    let s := Trace.run step es (new w now)
    let s' := s.step (.setTtl key ttl)
    (s.handler.setTtl key ttl s.now).1 = 0 ∧
      (s'.handler.getTtl key s.now = ttl ↔ 1000 * ttl.toInt < 2 ^ 63) ∧
      (Lasts s key ttl → ∀ es', Trace.Along step (Leaves key) es' s' →
        (Trace.run step es' s').now.toInt < s.now.toInt + 1000 * ttl.toInt →
          (Trace.run step es' s').deletes ≠ some key) := by
  intro s s'
  obtain ⟨T, hL⟩ := lists_run hw hI now es
  refine ⟨setTtl_reply hL hkey ttl s.now, ?_, fun hlasts es' hes' hearly => ?_⟩
  · rw [← remaining_iff httl s.now]
    have hget := getTtl_stored (hL.setTtl hkey ttl s.now) (OrdMap.get_insert_self T key _) s.now
    exact iff_of_eq (congrArg (· = ttl) hget)
  · obtain rfl | ⟨hpos, hfits, hscan⟩ := hlasts
    · have hlater : s.now ≤ (Trace.run step es' s').now := now_run hes'
      have hlater' := Int64.le_iff_toInt_le.mp hlater
      rw [Int64.toInt_zero] at hearly
      omega
    · have ht : (expired ttl s.now).toInt = s.now.toInt + 1000 * ttl.toInt := by
        rw [expired, Int64.toInt_add, ttl_product, Int.add_bmod_bmod]
        exact Int.bmod_eq_of_le (by omega) (by omega)
      have hset := timed_set ⟨T, hL⟩ hkey ht hscan
      have hnow : (Trace.run step es' s').now < expired ttl s.now := by
        rw [Int64.lt_iff_toInt_lt, ht]
        exact hearly
      have hpos' : 0 ≤ (expired ttl s.now).toInt := by rw [ht]; exact hpos
      rcases timed_run hset hpos' hes' with hdue | htimed
      · exact absurd hdue (not_le.mpr hnow)
      · exact htimed.deletes hnow

theorem ttl_round_trip_minute :
    let s := Trace.run step [.thread, .setTtl [108] 5, .thread] (new (fresh false 0) 1700000000000)
    let s' := s.step (.setTtl [107] 60)
    (s.handler.setTtl [107] 60 s.now).1 = 0 ∧
      (s'.handler.getTtl [107] s.now = 60 ↔ 1000 * (60 : Int64).toInt < 2 ^ 63) ∧
      (Lasts s [107] 60 → ∀ es', Trace.Along step (Leaves [107]) es' s' →
        (Trace.run step es' s').now.toInt < s.now.toInt + 1000 * (60 : Int64).toInt →
          (Trace.run step es' s').deletes ≠ some [107]) := by
  have hfaults : (fresh false 0).faults = Faults.none := rfl
  have hkey : Listed [107] := ⟨by decide, by decide⟩
  have httl : 0 ≤ (60 : Int64).toInt := by decide
  exact ttl_round_trip hfaults (fresh_holds false 0).index 1700000000000
    [.thread, .setTtl [108] 5, .thread] hkey httl

theorem greatest_ttl_deleted :
    let s := new (fresh false 0) 1700000000000
    let s' := s.step (.setTtl [107] 9223372036854775807)
    (s.handler.setTtl [107] 9223372036854775807 s.now).1 = 0 ∧
      s'.handler.getTtl [107] s.now = -1 ∧
      (Trace.run step [.thread, .thread, .thread, .thread, .thread] s').now = s.now ∧
      (Trace.run step [.thread, .thread, .thread, .thread, .thread] s').deletes = some [107] := by
  decide +kernel

end Expiry
