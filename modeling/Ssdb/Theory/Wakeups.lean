import Ssdb.Theory.Expiry

namespace Expiry
open ExpirationHandler SSDBImpl Strings ScoredSet

variable {s : Expiry} {e : ExpiryStep} {T : OrdMap Bytes Int64}

theorem load_steps (h : ExpirationHandler) (now : Int64) (it : ZIterator) :
    ∃ n, Trace.run step (List.replicate n .thread) ⟨h, now, .load it⟩ =
      ⟨it.rest.foldl loadKey h, now, .last⟩ := by
  generalize hl : it.rest = l
  induction l generalizing h it with
  | nil =>
    rcases it.next_rest with ⟨-, hnext⟩ | ⟨a, l, it', hrest, -⟩
    · refine ⟨1, ?_⟩
      rcases hit : it.next with ⟨more, it'⟩
      rw [hit] at hnext
      obtain rfl : more = false := hnext
      simp only [List.replicate_one, Trace.run_cons, Trace.run_nil, step, threadFunc, hit]
      rfl
    · exact absurd (hrest.symm.trans hl) (by simp)
  | cons e l ih =>
    rcases it.next_rest with ⟨hrest, -⟩ | ⟨a, l', it', hrest, hnext, hitem, hleft⟩
    · exact absurd (hrest.symm.trans hl) (by simp)
    · obtain ⟨rfl, rfl⟩ := List.cons.inj (hrest.symm.trans hl)
      obtain ⟨n, hn⟩ := ih (h.loadKey a) it' hleft
      refine ⟨n + 1, ?_⟩
      rw [List.replicate_succ, Trace.run_cons, List.foldl_cons, ← hn]
      simp only [step, threadFunc, hnext, hitem]

theorem expireLoop_steps (h : ExpirationHandler) (now : Int64) :
    ∃ n, Trace.run step (List.replicate n .thread) ⟨h, now, .test⟩ =
      ⟨(h.expireLoop now).2, now, .head⟩ := by
  by_cases hempty : h.fastKeys.empty = true
  · obtain ⟨n, hn⟩ := load_steps (h.scanKeys (UInt64.ofNat BATCH_SIZE)).2 now
      (h.scanKeys (UInt64.ofNat BATCH_SIZE)).1
    refine ⟨1 + (1 + (n + 1)), ?_⟩
    rw [List.replicate_add, Trace.run_append, List.replicate_add, Trace.run_append,
      List.replicate_add, Trace.run_append]
    have htest : Trace.run step (List.replicate 1 .thread) ⟨h, now, .test⟩ = ⟨h, now, .scan⟩ := by
      simp [step, threadFunc, hempty]
    have hscan : Trace.run step (List.replicate 1 .thread) ⟨h, now, .scan⟩ =
        ⟨(h.scanKeys (UInt64.ofNat BATCH_SIZE)).2, now,
          .load (h.scanKeys (UInt64.ofNat BATCH_SIZE)).1⟩ := rfl
    rw [htest, hscan, hn, expireLoop, if_pos hempty]
    rfl
  · refine ⟨2, ?_⟩
    rw [expireLoop, if_neg hempty]
    simp [List.replicate_succ, step, threadFunc, hempty]

theorem lookup_retimed {S : SortedSet} {key l : Bytes} {t u : Int64}
    (h : (retimed S key t).lookup l = some u) :
    l = key ∧ u = t ∨ l ≠ key ∧ S.lookup l = some u := by
  have hadded (hadd : (S.add key t).2.lookup l = some u) :
      l = key ∧ u = t ∨ l ≠ key ∧ S.lookup l = some u := by
    rw [SortedSet.lookup_add] at hadd
    split_ifs at hadd with hkey
    · exact .inl ⟨hkey, (Option.some.inj hadd).symm⟩
    · exact .inr ⟨hkey, hadd⟩
  rw [retimed] at h
  split_ifs at h
  · have hne : (S.add key t).2.empty = false :=
      SortedSet.empty_false_iff.mpr ⟨key, t, by rw [SortedSet.lookup_add, if_pos rfl]⟩
    obtain ⟨i, hi⟩ := SortedSet.back_of_nonempty hne
    rw [SortedSet.lookup_popBack hi] at h
    split_ifs at h
    exact hadded h
  · exact hadded h
  · rw [SortedSet.lookup_del] at h
    split_ifs at h with hkey
    exact .inr ⟨hkey, h⟩

def Allowed (e : ExpiryStep) (s : Expiry) : Prop :=
  match e with
  | .clock now => s.now ≤ now
  | .setTtl key ttl => Listed key ∧ 0 ≤ ttl.toInt ∧ s.now.toInt + 1000 * ttl.toInt < 2 ^ 63
  | .delTtl key => Listed key
  | .thread => True

def Current (e : ExpiryStep) (s : Expiry) : Prop :=
  match e, s.phase with
  | .thread, .load it => it.next.1 = true →
    ∃ t ∈ s.handler.stored it.next.2.key, t ≤ int64 it.next.2.score
  | _, _ => True

instance (e : ExpiryStep) (s : Expiry) : Decidable (Allowed e s) := by
  unfold Allowed Listed
  split <;> infer_instance

instance (e : ExpiryStep) (s : Expiry) : Decidable (Current e s) := by
  unfold Current
  split <;> infer_instance

def Backed (T : OrdMap Bytes Int64) (S : SortedSet) : Prop :=
  ∀ key t, S.lookup key = some t → ∃ u, T.get key = some u ∧ (u ≤ t ∨ u < 2000000000)

namespace Backed
variable {S : SortedSet} {key : Bytes} {t : Int64}

theorem retimed (hB : Backed T S) : Backed (T.insert key t) (retimed S key t) := by
  intro l u hl
  rw [OrdMap.get_insert]
  rcases lookup_retimed hl with ⟨rfl, rfl⟩ | ⟨hkey, hl⟩
  · exact ⟨u, if_pos rfl, .inl le_rfl⟩
  · rw [if_neg hkey]
    exact hB l u hl

theorem erase (hB : Backed T S) {S' : SortedSet}
    (hS : ∀ l, S'.lookup l = if l = key then none else S.lookup l) : Backed (T.erase key) S' := by
  intro l u hl
  rw [hS] at hl
  rw [OrdMap.get_erase]
  split_ifs at hl ⊢
  exact hB l u hl

theorem add (hB : Backed T S) {e : Bytes × Bytes} {u : Int64} (hkey : T.get e.1 = some u)
    (hu : u ≤ int64 e.2) : Backed T (S.add e.1 (loadedScore e.2)).2 := by
  intro l t hl
  rw [SortedSet.lookup_add] at hl
  split_ifs at hl with hsame
  · refine ⟨u, hsame ▸ hkey, ?_⟩
    rw [← Option.some.inj hl, loadedScore]
    split_ifs with hold
    · exact .inr (hu.trans_lt hold)
    · exact .inl hu
  · exact hB l t hl

end Backed

theorem threadFunc_cases (h : ExpirationHandler) (now : Int64) (phase : Phase) : ∃ phase',
    phase = .last ∧ threadFunc ⟨h, now, phase⟩ = ⟨(h.expireFirst now).2, now, phase'⟩ ∨
      (∃ it it', phase = .load it ∧ it.next = (true, it') ∧
        threadFunc ⟨h, now, phase⟩ = ⟨h.loadKey (it'.key, it'.score), now, phase'⟩) ∨
      phase ≠ .last ∧ threadFunc ⟨h, now, phase⟩ = ⟨h, now, phase'⟩ := by
  cases phase with
  | head =>
    by_cases hsleep : h.firstTimeout > now
    · exact ⟨.head, .inr (.inr ⟨Phase.noConfusion, if_pos hsleep⟩)⟩
    · exact ⟨.test, .inr (.inr ⟨Phase.noConfusion, if_neg hsleep⟩)⟩
  | test => exact ⟨_, .inr (.inr ⟨Phase.noConfusion, rfl⟩)⟩
  | scan => exact ⟨_, .inr (.inr ⟨Phase.noConfusion, rfl⟩)⟩
  | load it =>
    rcases hit : it.next with ⟨_ | _, it'⟩
    · refine ⟨.last, .inr (.inr ⟨Phase.noConfusion, ?_⟩)⟩
      simp only [threadFunc, hit]
    · refine ⟨.load it', .inr (.inl ⟨it, it', rfl, hit, ?_⟩)⟩
      simp only [threadFunc, hit]
  | last => exact ⟨_, .inl ⟨rfl, rfl⟩⟩

theorem threadFunc_lists {h : ExpirationHandler} (hL : Lists h T) (now : Int64) (phase : Phase) :
    ∃ T', Lists (threadFunc ⟨h, now, phase⟩).handler T' := by
  obtain ⟨phase', ⟨-, hnext⟩ | ⟨it, it', -, -, hnext⟩ | ⟨-, hnext⟩⟩ := threadFunc_cases h now phase
  · rw [hnext]
    rcases h.expireFirst_cases now with ⟨-, heq⟩ | ⟨i, -, ⟨-, heq⟩ | ⟨-, heq⟩⟩
    · exact ⟨T, hL.same (by rw [heq])⟩
    · exact ⟨T.erase i.key, hL.expire _ (by rw [heq])⟩
    · exact ⟨T, hL.same (by rw [heq])⟩
  · rw [hnext]
    exact ⟨T, hL.same rfl⟩
  · rw [hnext]
    exact ⟨T, hL⟩

structure Safe (s : Expiry) (T : OrdMap Bytes Int64) : Prop where
  lists : Lists s.handler T
  clock : 2000000000 < s.now
  backed : Backed T s.handler.fastKeys

theorem Safe.thread (hs : Safe s T) (hc : Current .thread s) : ∃ T', Safe s.threadFunc T' := by
  obtain ⟨h, now, phase⟩ := s
  obtain ⟨hL, hclock, hB⟩ := hs
  obtain ⟨phase', ⟨-, hnext⟩ | ⟨it, it', rfl, hit, hnext⟩ | ⟨-, hnext⟩⟩ := threadFunc_cases h now phase
  · rw [hnext]
    rcases h.expireFirst_cases now with ⟨-, heq⟩ | ⟨i, hi, ⟨-, heq⟩ | ⟨-, heq⟩⟩
    · rw [heq]
      exact ⟨T, hL.same rfl, hclock, hB⟩
    · rw [heq]
      exact ⟨T.erase i.key, hL.expire _ rfl, hclock,
        hB.erase fun l => SortedSet.lookup_popFront hi l⟩
    · rw [heq]
      exact ⟨T, hL.same rfl, hclock, hB⟩
  · have hstill : it.next.1 = true →
        ∃ t ∈ h.stored it.next.2.key, t ≤ int64 it.next.2.score := hc
    rw [hit] at hstill
    obtain ⟨u, hkey, hu⟩ := hstill rfl
    rw [Option.mem_def, hL.stored] at hkey
    rw [hnext]
    exact ⟨T, hL.same rfl, hclock, hB.add (e := (it'.key, it'.score)) hkey hu⟩
  · rw [hnext]
    exact ⟨T, hL, hclock, hB⟩

theorem Safe.step (hs : Safe s T) (ha : Allowed e s) (hc : Current e s) :
    ∃ T', Safe (s.step e) T' := by
  obtain ⟨hL, hclock, hB⟩ := hs
  cases e with
  | clock now => exact ⟨T, hL, hclock.trans_le ha, hB⟩
  | setTtl key ttl =>
    refine ⟨_, hL.setTtl ha.1 ttl s.now, hclock, ?_⟩
    simp only [Expiry.step, setTtl_apply hL ha.1]
    exact hB.retimed
  | delTtl key =>
    by_cases hfirst : s.handler.firstTimeout = INT64_MAX
    · rw [Expiry.step, delTtl, if_neg (not_not_intro hfirst)]
      exact ⟨T, hL, hclock, hB⟩
    · refine ⟨T.erase key, hL.delTtl hfirst key, hclock, ?_⟩
      simp only [Expiry.step, delTtl, if_pos hfirst]
      exact hB.erase fun l => SortedSet.lookup_del _ key l
  | thread => exact Safe.thread ⟨hL, hclock, hB⟩ hc

theorem Safe.deletes (hs : Safe s T) {key : Bytes} (hdel : s.deletes = some key) :
    ∃ t, s.handler.stored key = some t ∧ t ≤ s.now := by
  obtain ⟨h, now, phase⟩ := s
  obtain ⟨hL, hclock, hB⟩ := hs
  cases phase with
  | last =>
    rw [Expiry.deletes] at hdel
    rcases h.expireFirst_cases now with ⟨-, heq⟩ | ⟨i, hi, ⟨hdue, heq⟩ | ⟨-, heq⟩⟩
    · rw [heq] at hdel
      exact absurd hdel (by simp)
    · rw [heq] at hdel
      obtain rfl : i.key = key := Option.some.inj hdel
      obtain ⟨u, hu, hle⟩ := hB i.key i.score (SortedSet.front_mem hi)
      refine ⟨u, (hL.stored i.key).trans hu, ?_⟩
      exact hle.elim (fun h => h.trans hdue) fun h => (h.trans hclock).le
    · rw [heq] at hdel
      exact absurd hdel (by simp)
  | _ => exact absurd hdel (by simp [Expiry.deletes])

/-- While every key that the loader adds is still on the list with a time not after the scanned
one, whatever comes in between, every key that is deleted is on the list and due. -/
theorem deletes_only_due {w : SSDBImpl} {Z : ScoredSet} (hw : w.faults = Faults.none)
    (hI : Indexed w.ldb.data Z) {now : Int64} (hnow : 2000000000 < now) (es : List ExpiryStep)
    (hes : Trace.Along step Allowed es (new w now)) (hcur : Trace.Along step Current es (new w now)) :
    let s := Trace.run step es (new w now)
    ∀ key, s.deletes = some key → ∃ t, s.handler.stored key = some t ∧ t ≤ s.now := by
  intro s key hdel
  have hstart : ∃ T, Safe (new w now) T :=
    ⟨_, ⟨hw, Z, hI, rfl⟩, hnow, fun _ _ hl => absurd hl (by simp [new, ExpirationHandler.new,
      SortedSet.lookup, SortedSet.new])⟩
  have hsafe : ∃ T, Safe s T := by
    refine (hes.and hcur).invariant (J := fun s => ∃ T, Safe s T) (fun e s he hs => ?_) hstart
    obtain ⟨T, hs⟩ := hs
    exact hs.step he.1 he.2
  obtain ⟨T, hs⟩ := hsafe
  exact hs.deletes hdel

theorem deletes_only_due_expired :
    let es := [.setTtl [107] 1, .thread, .thread, .thread, .thread, .thread, .clock 3000001000]
    ∃ t, (Trace.run step es (new (fresh false 0) 3000000000)).handler.stored [107] = some t ∧
      t ≤ (Trace.run step es (new (fresh false 0) 3000000000)).now :=
  deletes_only_due rfl (fresh_holds false 0).index (by decide) _ (by decide +kernel)
    (by decide +kernel) [107] (by decide +kernel)

theorem stale_key_deleted :
    let s := new (fresh false 0) 3000000000
    let es := [.setTtl [107] 1, .thread, .thread, .thread, .delTtl [107], .thread, .thread,
      .clock 3000001000]
    Trace.Along step Allowed es s ∧ (Trace.run step es s).deletes = some [107] ∧
      (Trace.run step es s).handler.stored [107] = none := by
  decide +kernel

def Wakes (h : ExpirationHandler) : Prop :=
  ∀ key t, h.stored key = some t → h.firstTimeout ≤ t ∧ h.firstTimeout ≠ INT64_MAX

def Watches (e : ExpiryStep) (s : Expiry) : Prop :=
  match e, s.phase with
  | .setTtl _ ttl, _ => expired ttl s.now = INT64_MAX → s.handler.firstTimeout ≠ INT64_MAX
  | .thread, .last => ∀ key t, s.handler.stored key = some t →
    ∃ i, s.handler.fastKeys.front = some i ∧
      (i.key = key ∧ i.score ≤ s.now ∨ i.score ≤ t ∧ i.score ≠ INT64_MAX)
  | _, _ => True

theorem wakes_iff {h : ExpirationHandler} (hL : Lists h T) :
    Wakes h ↔ ∀ key t, T.get key = some t → h.firstTimeout ≤ t ∧ h.firstTimeout ≠ INT64_MAX := by
  simp only [Wakes, hL.stored]

theorem le_INT64_MAX (t : Int64) : t ≤ INT64_MAX := le_maxValue t

theorem setTtl_wakes {h : ExpirationHandler} (hL : Lists h T) (hwakes : Wakes h) {key : Bytes}
    (hkey : Listed key) (ttl now : Int64) : Wakes (h.setTtl key ttl now).2 ↔
      (expired ttl now = INT64_MAX → h.firstTimeout ≠ INT64_MAX) := by
  rw [wakes_iff hL] at hwakes
  rw [wakes_iff (hL.setTtl hkey ttl now), setTtl_apply hL hkey]
  have hearlier := earlier_le (expired ttl now) h.firstTimeout
  constructor
  · intro h' hmax
    obtain ⟨-, hmark⟩ := h' key _ (OrdMap.get_insert_self T key _)
    have hkept : ¬expired ttl now < h.firstTimeout := by
      rw [hmax]
      exact not_lt.mpr (le_INT64_MAX _)
    simpa only [if_neg hkept] using hmark
  · intro hmark l t hl
    have hne : (if expired ttl now < h.firstTimeout then expired ttl now else h.firstTimeout) ≠
        INT64_MAX := by
      split_ifs with hless
      · exact (hless.trans_le (le_INT64_MAX _)).ne
      · intro hfirst
        have hge := not_lt.mp hless
        rw [hfirst] at hge
        exact hmark (le_antisymm (le_INT64_MAX _) hge) hfirst
    rw [OrdMap.get_insert] at hl
    split_ifs at hl
    · exact ⟨hearlier.1.trans (Option.some.inj hl).le, hne⟩
    · exact ⟨hearlier.2.trans (hwakes l t hl).1, hne⟩

theorem delTtl_wakes {h : ExpirationHandler} (hL : Lists h T) (hwakes : Wakes h) (key : Bytes) :
    Wakes (h.delTtl key).2 := by
  by_cases hfirst : h.firstTimeout = INT64_MAX
  · rw [delTtl, if_neg (not_not_intro hfirst)]
    exact hwakes
  · rw [wakes_iff (hL.delTtl hfirst key), delTtl, if_pos hfirst]
    exact fun l t hl => (wakes_iff hL).mp hwakes l t (of_erase hl)

theorem expireFirst_wakes {h : ExpirationHandler} (hL : Lists h T) (now : Int64) :
    Wakes (h.expireFirst now).2 ↔ ∀ key t, h.stored key = some t →
      ∃ i, h.fastKeys.front = some i ∧
        (i.key = key ∧ i.score ≤ now ∨ i.score ≤ t ∧ i.score ≠ INT64_MAX) := by
  simp only [hL.stored]
  rcases h.expireFirst_cases now with ⟨hempty, heq⟩ | ⟨i, hi, hend⟩
  · rw [heq, wakes_iff (h := { h with firstTimeout := INT64_MAX }) (hL.same rfl)]
    refine forall₃_congr fun key t hk => ⟨fun hmark => absurd rfl hmark.2, fun ⟨i, hi, _⟩ => ?_⟩
    rw [SortedSet.nonempty_of_front hi] at hempty
    exact absurd hempty (by simp)
  · simp only [hi, Option.some.injEq, exists_eq_left']
    rcases hend with ⟨hdue, heq⟩ | ⟨hearly, heq⟩
    · rw [heq, wakes_iff (T := T.erase i.key) (hL.expire _ rfl)]
      simp only [OrdMap.get_erase, hdue, and_true]
      constructor
      · intro h' key t hk
        rcases eq_or_ne key i.key with hkey | hkey
        · exact .inl hkey.symm
        · exact .inr (h' key t (by rw [if_neg hkey]; exact hk))
      · intro h' key t hk
        split_ifs at hk with hkey
        exact (h' key t hk).resolve_left (Ne.symm hkey)
    · rw [heq, wakes_iff (h := { h with firstTimeout := i.score }) (hL.same rfl)]
      simp only [hearly, and_false, false_or]

theorem thread_wakes {h : ExpirationHandler} (hL : Lists h T) {now : Int64} {phase : Phase}
    (hwakes : Wakes h) :
    Wakes (threadFunc ⟨h, now, phase⟩).handler ↔ Watches .thread ⟨h, now, phase⟩ := by
  obtain ⟨phase', ⟨rfl, hnext⟩ | ⟨it, it', rfl, -, hnext⟩ | ⟨hphase, hnext⟩⟩ :=
    threadFunc_cases h now phase
  · rw [hnext]
    exact expireFirst_wakes hL now
  · rw [hnext]
    exact iff_of_true ((wakes_iff (hL.same rfl)).mpr ((wakes_iff hL).mp hwakes)) trivial
  · rw [hnext]
    refine iff_of_true hwakes ?_
    cases phase with
    | last => exact absurd rfl hphase
    | _ => trivial

theorem lists_step (e : ExpiryStep) (hs : ∃ T, Lists s.handler T) :
    ∃ T, Lists (s.step e).handler T := by
  obtain ⟨T, hL⟩ := hs
  cases e with
  | clock now => exact ⟨T, hL⟩
  | setTtl l ttl =>
    obtain ⟨T', -, hlists⟩ := hL.zset_other l (expired ttl s.now)
    exact ⟨T', hlists _ (s.handler.setTtl_parts l ttl s.now).1⟩
  | delTtl l =>
    by_cases hfirst : s.handler.firstTimeout = INT64_MAX
    · rw [step, delTtl, if_neg (not_not_intro hfirst)]
      exact ⟨T, hL⟩
    · exact ⟨_, hL.delTtl hfirst l⟩
  | thread => exact threadFunc_lists hL s.now s.phase

theorem step_wakes (ha : Allowed e s) (hs : ∃ T, Lists s.handler T) (hwakes : Wakes s.handler) :
    Wakes (s.step e).handler ↔ Watches e s := by
  obtain ⟨T, hL⟩ := hs
  cases e with
  | clock now => exact iff_of_true hwakes trivial
  | setTtl key ttl => exact setTtl_wakes hL hwakes ha.1 ttl s.now
  | delTtl key => exact iff_of_true (delTtl_wakes hL hwakes key) trivial
  | thread => exact thread_wakes hL hwakes

/-- In a run from a list without times before the epoch, `first_timeout` is in every state not after
any time on the list, nor the mark of an empty one, exactly when no step of the run misses one. -/
theorem wakes_in_time {w : SSDBImpl} {Z : ScoredSet} (hw : w.faults = Faults.none)
    (hI : Indexed w.ldb.data Z) {now : Int64}
    (hpast : ∀ key t, (ExpirationHandler.new w).stored key = some t → 0 ≤ t) (es : List ExpiryStep)
    (hes : Trace.Along step Allowed es (new w now)) :
    (∀ cs, cs <+: es → Wakes (Trace.run step cs (new w now)).handler) ↔
      Trace.Along step Watches es (new w now) := by
  have hlists : ∃ T, Lists (new w now).handler T := ⟨_, hw, Z, hI, rfl⟩
  have hwakes : Wakes (new w now).handler := fun key t hk =>
    ⟨hpast key t hk, (by decide : (0 : Int64) ≠ INT64_MAX)⟩
  have hkept : ∀ e s, Allowed e s → (∃ T, Lists s.handler T) → ∃ T, Lists (step e s).handler T :=
    fun e _ _ hs => lists_step e hs
  have hstep : ∀ e s, Allowed e s → (∃ T, Lists s.handler T) → Wakes s.handler →
      (Wakes (step e s).handler ↔ Watches e s) := fun _ _ => step_wakes
  exact Trace.along_iff_states hes hlists hwakes hkept hstep

theorem wakes_in_time_set :
    let s := new (fresh false 0) 3000000000
    let es := [.thread, .thread, .setTtl [107] 1, .thread, .thread, .thread, .thread]
    (∀ cs, cs <+: es → Wakes (Trace.run step cs s).handler) ↔ Trace.Along step Watches es s :=
  wakes_in_time rfl (fresh_holds false 0).index
    (fun key t hk => absurd hk (by rw [fresh_stored]; simp)) _ (by decide +kernel)

theorem wakeup_lost :
    let s := new (fresh false 0) 3000000000
    let es := [.thread, .thread, .thread, .setTtl [107] 1, .thread, .thread]
    Trace.Along step Allowed es s ∧ (Trace.run step es s).phase = .head ∧
      (Trace.run step es s).handler.stored [107] = some 3000001000 ∧
      (Trace.run step es s).handler.firstTimeout = INT64_MAX := by
  refine ⟨by decide +kernel, rfl, by decide +kernel, by decide +kernel⟩

end Expiry
