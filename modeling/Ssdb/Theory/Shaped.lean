import Ssdb.Theory.HashRecords

namespace Container
open Keys SSDBImpl
open HashTable (Admitted)

def Shaped (t : OrdMap Bytes Bytes) : Prop := ∀ e ∈ t.entries, Fits e.1 e.2

def FitRec : Rec → Prop
  | .put key value => Fits key value
  | .delete _ => True
  | .log _ _ _ => True

theorem shaped_apply {t : OrdMap Bytes Bytes} {op : BatchOp} (ht : Shaped t)
    (hop : FitRec op.toRec) : Shaped (op.apply t) := by
  intro e he
  have hget := (OrdMap.mem_entries_iff _ _ _).mp he
  cases op with
  | put key value =>
    rw [BatchOp.apply, OrdMap.get_insert] at hget
    split_ifs at hget with hkey
    · rw [hkey, ← Option.some.inj hget]
      exact hop
    · exact ht e ((OrdMap.mem_entries_iff _ _ _).mpr hget)
  | delete key =>
    rw [BatchOp.apply, OrdMap.get_erase] at hget
    split_ifs at hget
    exact ht e ((OrdMap.mem_entries_iff _ _ _).mpr hget)

theorem shaped_batch {batch : List BatchOp} {t : OrdMap Bytes Bytes} (ht : Shaped t)
    (hb : ∀ op ∈ batch, FitRec op.toRec) : Shaped (batch.foldl BatchOp.apply t) := by
  induction batch generalizing t with
  | nil => exact ht
  | cons op batch ih =>
    exact ih (shaped_apply ht (hb op (by simp))) fun op' h' => hb op' (by simp [h'])

structure Formed (w : SSDBImpl) : Prop where
  table : Shaped w.ldb.table
  batch : ∀ op ∈ w.binlogs.batch, FitRec op.toRec

theorem formed_kept {S : Rec → Prop} (hS : ∀ r, S r → FitRec r) : Kept S Formed where
  faults _ h := ⟨h.table, h.batch⟩
  start h := ⟨h.table, fun _ hop => absurd hop List.not_mem_nil⟩
  draft {w r} hr h := by
    refine ⟨h.table, fun op hop => ?_⟩
    have hadded {new : BatchOp} (hop : op ∈ w.binlogs.batch ++ [new]) (hnew : FitRec new.toRec) :
        FitRec op.toRec :=
      (List.mem_append.mp hop).elim (h.batch op) fun h' => List.mem_singleton.mp h' ▸ hnew
    cases r with
    | put key value => exact hadded hop (hS _ hr)
    | delete key => exact hadded hop trivial
    | log type cmd key =>
      simp only [SSDBImpl.record, BinlogQueue.recordAll, List.foldl, BinlogQueue.record,
        BinlogQueue.addLog] at hop
      split_ifs at hop
      · exact h.batch op hop
      · exact hadded hop (fits_of_head (b := DataType.SYNCLOG) rfl (by decide))
  commit h := ⟨shaped_batch h.table h.batch, h.batch⟩
  stop h := ⟨h.table, h.batch⟩
  write hb h := ⟨shaped_batch h.table fun op hop => hS _ (hb op hop), h.batch⟩

theorem fit_of_writes {C : Container} {r : Rec} (h : C.Writes r) : FitRec r := by
  cases r with
  | put key value => exact h.2
  | delete key => trivial
  | log type cmd key => trivial

theorem fit_of_fixes {n : Bytes} {r : Rec} (h : Fixes n (Admitted n) r) : FitRec r := by
  cases r with
  | put key value =>
    rcases h with rfl | ⟨k, hk, rfl | ⟨⟨s, rfl⟩, rfl⟩⟩
    · exact fits_of_head rfl (by decide)
    · exact fits_zset hk
    · exact fits_zscore hk s
  | delete key => trivial
  | log type cmd key => trivial

theorem shaped_meets {t : OrdMap Bytes Bytes} (ht : Shaped t) (n : Bytes) :
    ∀ e ∈ t.entries, Meets n (Admitted n) e := by
  intro e he
  refine ⟨fun hhead k s hd => ?_, fun hhead k hd => ?_⟩
  · obtain ⟨-, m, l, s', ha, hkey⟩ := (ht e he).zscore hhead
    rw [hkey, decode_zscore_key l s' ha.2.2.1] at hd
    obtain ⟨rfl, rfl, -⟩ : m = n ∧ l = k ∧ Strings.str s' = s := by simpa using hd
    exact ha
  · obtain ⟨m, l, ha, hkey⟩ := (ht e he).zset hhead
    rw [hkey, decode_zset_key ha.2.2.1 ha.2.2.2] at hd
    obtain ⟨rfl, rfl⟩ : m = n ∧ l = k := by simpa using hd
    exact ha

theorem formed_run (c : Call) : Keeps Formed c.run := by
  cases c with
  | zfix n =>
    exact .map (keeps_zfix (formed_kept fun _ => fit_of_fixes) fun w hw => shaped_meets hw.table n)
  | hclear n => exact Call.keeps_run (formed_kept fun _ h => fit_of_writes (C := .hash n) h)
  | flushdb =>
    refine Call.keeps_run (formed_kept fun r h => ?_)
    obtain ⟨key, rfl⟩ := h
    trivial
  | _ =>
    refine Call.keeps_run (formed_kept fun r h => ?_)
    obtain ⟨C, -, hr⟩ := h
    exact fit_of_writes hr

theorem formed_exec (c : Call) (f : Faults) {w : SSDBImpl} (hw : Formed w) :
    Formed (c.exec f w).2 := by
  have hrun := formed_run c { w with faults := f } ⟨hw.table, hw.batch⟩
  exact ⟨hrun.table, hrun.batch⟩

theorem formed_execAll (cs : List (Call × Faults)) {w : SSDBImpl} (hw : Formed w) :
    Formed (Call.execAll cs w).2 :=
  Call.execAll_invariant (fun e _ (_ : True) h => formed_exec e.1 e.2 h) (fun _ _ => trivial) hw

theorem formed_fresh (enabled : Bool) (capacity : Int32) :
    Formed (SSDBImpl.fresh enabled capacity) :=
  ⟨fun _ he => absurd he List.not_mem_nil, fun _ hop => absurd hop List.not_mem_nil⟩

theorem reachable_shaped {w : SSDBImpl} (h : Call.Reachable w) : Shaped w.ldb.table := by
  obtain ⟨enabled, capacity, cs, rfl⟩ := h
  exact (formed_execAll cs (formed_fresh enabled capacity)).table

variable {t : OrdMap Bytes Bytes} {n k v : Bytes}

theorem shaped_get (ht : Shaped t) {key : Bytes} (h : t.get key = some v) : Fits key v :=
  ht (key, v) ((OrdMap.mem_entries_iff _ _ _).mpr h)

theorem shaped_hash (ht : Shaped t) (h : t.get (encodeHashKey n k) = some v) : Admitted n k := by
  obtain ⟨m, l, ha, hkey⟩ := (shaped_get ht h).hash rfl
  obtain ⟨rfl, rfl⟩ := encodeHashKey_injective ha.2.2.1 ha.2.2.2 hkey.symm
  exact ha

theorem shaped_zset (ht : Shaped t) (h : t.get (encodeZsetKey n k) = some v) : Admitted n k := by
  obtain ⟨m, l, ha, hkey⟩ := (shaped_get ht h).zset rfl
  obtain ⟨rfl, rfl⟩ := encodeZsetKey_injective ha.2.2.1 ha.2.2.2 hkey.symm
  exact ha

theorem shaped_queue (ht : Shaped t) {key : Bytes} (h : key ∈ t.keys)
    (hhead : key.head? = some DataType.QUEUE) :
    ∃ m s, m.length ≤ SSDB_KEY_LEN_MAX ∧ key = encodeQitemKey m s := by
  obtain ⟨e, he, rfl⟩ := List.mem_map.mp h
  exact (ht e he).queue hhead

end Container
