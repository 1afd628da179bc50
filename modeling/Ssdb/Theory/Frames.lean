import Ssdb.Theory.NoTrace
import Ssdb.Theory.Steps

def Rec.Spares (K : Bytes → Prop) : Rec → Prop
  | put key _ => ¬K key
  | delete key => ¬K key
  | log _ _ _ => True

theorem BatchOp.get_apply (t : OrdMap Bytes Bytes) {op : BatchOp} {K : Bytes → Prop}
    (hop : op.toRec.Spares K) {key : Bytes} (hkey : K key) : (op.apply t).get key = t.get key := by
  cases op with
  | put key' value => exact OrdMap.get_insert_ne t value fun h => hop (h ▸ hkey)
  | delete key' => exact OrdMap.get_erase_ne t fun h => hop (h ▸ hkey)

namespace SSDBImpl

structure Untouched (K : Bytes → Prop) (t : OrdMap Bytes Bytes) (w : SSDBImpl) : Prop where
  table : ∀ key, K key → w.ldb.table.get key = t.get key
  batch : ∀ op ∈ w.binlogs.batch, op.toRec.Spares K

variable {K : Bytes → Prop} {t : OrdMap Bytes Bytes} {S : Rec → Prop}

theorem get_batch {batch : List BatchOp} (hb : ∀ op ∈ batch, op.toRec.Spares K)
    (t : OrdMap Bytes Bytes) {key : Bytes} (hkey : K key) :
    (batch.foldl BatchOp.apply t).get key = t.get key := by
  induction batch generalizing t with
  | nil => rfl
  | cons op batch ih =>
    have hrest := ih (fun op' h' => hb op' (by simp [h'])) (op.apply t)
    exact hrest.trans (op.get_apply t (hb op (by simp)) hkey)

theorem untouched_kept (hK : ∀ key, K key → key.head? ≠ some DataType.SYNCLOG)
    (hS : ∀ r, S r → r.Spares K) : Kept S (Untouched K t) where
  faults _ h := ⟨h.table, h.batch⟩
  start h := ⟨h.table, fun _ hop => absurd hop List.not_mem_nil⟩
  draft {w r} hr h := by
    refine ⟨h.table, fun op hop => ?_⟩
    have hadded {new : BatchOp} (hop : op ∈ w.binlogs.batch ++ [new]) (hnew : new.toRec.Spares K) :
        op.toRec.Spares K :=
      (List.mem_append.mp hop).elim (h.batch op) fun h' => List.mem_singleton.mp h' ▸ hnew
    cases r with
    | put key value => exact hadded hop (hS _ hr)
    | delete key => exact hadded hop (hS _ hr)
    | log type cmd key =>
      simp only [SSDBImpl.record, BinlogQueue.recordAll, List.foldl, BinlogQueue.record,
        BinlogQueue.addLog] at hop
      split_ifs at hop
      · exact h.batch op hop
      · exact hadded hop fun hlog => hK _ hlog rfl
  commit h := ⟨fun key hkey => (get_batch h.batch _ hkey).trans (h.table key hkey), h.batch⟩
  stop h := ⟨h.table, h.batch⟩
  write {w batch} hb h :=
    ⟨fun key hkey => (get_batch (fun op hop => hS _ (hb op hop)) _ hkey).trans (h.table key hkey),
      h.batch⟩

end SSDBImpl

namespace Call
open SSDBImpl Keys

variable {K : Bytes → Prop}

theorem run_opened (c : Call) (w : SSDBImpl) : (c.run w).2.ldb = (c.run w.opened).2.ldb :=
  (Respects.parts (respects_run c w w.opened rfl).2).1

theorem exec_untouched {c : Call} (hK : ∀ key, K key → key.head? ≠ some DataType.SYNCLOG)
    (hS : ∀ r, c.Writes r → r.Spares K) (f : Faults) (w : SSDBImpl) {key : Bytes} (hkey : K key) :
    (c.exec f w).2.ldb.table.get key = w.ldb.table.get key := by
  have hstart : Untouched K w.ldb.table ({ w with faults := f } : SSDBImpl).opened :=
    ⟨fun _ _ => rfl, fun _ hop => absurd hop List.not_mem_nil⟩
  have hrun := (keeps_run (untouched_kept hK hS) _ hstart).table key hkey
  rwa [← run_opened] at hrun

def heads : Call → List Byte
  | hclear n => (Container.hash n).heads
  | zfix n => (Container.zset n).heads
  | c => match c.container with
    | some C => C.heads
    | none => []

theorem container_spares {C : Container} {r : Rec} (h : C.Writes r) :
    r.Spares (fun key => ∀ b ∈ C.heads, key.head? ≠ some b) := by
  have howns {key : Bytes} (ho : C.Owns key) : ¬∀ b ∈ C.heads, key.head? ≠ some b := by
    obtain ⟨b, hb, hkey⟩ := Container.owns_head ho
    exact fun h' => h' b hb hkey
  cases r with
  | put key value => exact howns h.1
  | delete key => exact howns h
  | log type cmd key => trivial

theorem fixes_spares {n : Bytes} {ok : Bytes → Prop} {r : Rec} (h : Fixes n ok r) :
    r.Spares (fun key => ∀ b ∈ (Container.zset n).heads, key.head? ≠ some b) := by
  cases r with
  | put key value =>
    rcases h with rfl | ⟨k, -, rfl | ⟨⟨s, rfl⟩, -⟩⟩
    · exact fun h' => h' DataType.ZSIZE (by simp [Container.heads]) rfl
    · exact fun h' => h' DataType.ZSET (by simp [Container.heads]) rfl
    · exact fun h' => h' DataType.ZSCORE (by simp [Container.heads]) rfl
  | delete key =>
    obtain rfl := h
    exact fun h' => h' DataType.ZSIZE (by simp [Container.heads]) rfl
  | log type cmd key => trivial

theorem writes_spares {c : Call} (hc : c ≠ flushdb) {r : Rec} (h : c.Writes r) :
    r.Spares (fun key => ∀ b ∈ c.heads, key.head? ≠ some b) := by
  cases c with
  | hclear n => exact container_spares (C := .hash n) h
  | zfix n => exact fixes_spares h
  | flushdb => exact absurd rfl hc
  | _ =>
    obtain ⟨C, hC, hr⟩ := h
    have hsp := container_spares hr
    rwa [show C.heads = _ from (congrArg (fun o => match o with
      | some C => Container.heads C
      | none => []) hC).symm] at hsp

theorem exec_other_heads {c : Call} (hc : c ≠ flushdb) (f : Faults) (w : SSDBImpl) {key : Bytes}
    (hlog : key.head? ≠ some DataType.SYNCLOG) (hkey : ∀ b ∈ c.heads, key.head? ≠ some b) :
    (c.exec f w).2.ldb.table.get key = w.ldb.table.get key := by
  refine exec_untouched (K := fun key => key.head? ≠ some DataType.SYNCLOG ∧
    ∀ b ∈ c.heads, key.head? ≠ some b) (fun _ h => h.1) (fun r hr => ?_) f w ⟨hlog, hkey⟩
  have hsp := writes_spares hc hr
  cases r with
  | put key value => exact fun h => hsp h.2
  | delete key => exact fun h => hsp h.2
  | log type cmd key => trivial

theorem exec_data {c : Call} (hc : c ≠ flushdb) {b : Byte} (hb : b ∉ c.heads)
    (hlog : b ≠ DataType.SYNCLOG) (f : Faults) (w : SSDBImpl) (key : Bytes)
    (hkey : key.head? = some b) : (c.exec f w).2.ldb.data key = w.ldb.data key := by
  have hdata : key.head? ≠ some DataType.SYNCLOG :=
    fun h' => hlog (Option.some.inj (hkey.symm.trans h'))
  rw [LevelDB.data_eq hdata, LevelDB.data_eq hdata]
  refine exec_other_heads hc f w hdata fun b' hb' h' => ?_
  exact hb (Option.some.inj (hkey.symm.trans h') ▸ hb')

end Call
