import Ssdb.Theory.Answered

namespace HashTable
open Keys

def WellFormed (t : OrdMap Bytes Bytes) : Prop := ∃ H, Fields (dataOf t) H

def Safe : BatchOp → Prop
  | .put key _ => key.head? = some DataType.HASH → ∃ n k, Admitted n k ∧ key = encodeHashKey n k
  | .delete _ => True

theorem safe_put {key : Bytes} (value : Bytes) (h : key.head? ≠ some DataType.HASH) :
    Safe (.put key value) := fun h' => absurd h' h

theorem wellFormed_apply {t : OrdMap Bytes Bytes} {op : BatchOp} (ht : WellFormed t)
    (hop : Safe op) : WellFormed (op.apply t) := by
  obtain ⟨H, hF⟩ := ht
  cases op with
  | put key value =>
    by_cases hlog : key.head? = some DataType.SYNCLOG
    · have hsame : dataOf (t.insert key value) = dataOf t := by
        funext k
        simp only [dataOf, OrdMap.get_insert]
        split_ifs with h1 h2
        · rfl
        · exact absurd (h2 ▸ hlog) h1
        · rfl
      exact ⟨H, by rw [BatchOp.apply, hsame]; exact hF⟩
    · rw [BatchOp.apply, WellFormed, dataOf_insert t value hlog]
      by_cases hhash : key.head? = some DataType.HASH
      · obtain ⟨n, k, ha, rfl⟩ := hop hhash
        exact ⟨_, hF.put ha value⟩
      · exact ⟨H, hF.frame _ hhash⟩
  | delete key =>
    rw [BatchOp.apply, WellFormed, dataOf_erase]
    by_cases hhash : key.head? = some DataType.HASH
    · by_cases hnone : dataOf t key = none
      · exact ⟨H, by rw [← hnone, Function.update_eq_self]; exact hF⟩
      · obtain ⟨n, k, rfl⟩ := hF.typed key hhash hnone
        rw [hF.field n k] at hnone
        exact ⟨_, hF.remove (hF.admitted n k hnone)⟩
    · exact ⟨H, hF.frame _ hhash⟩

theorem wellFormed_batch {batch : List BatchOp} {t : OrdMap Bytes Bytes} (ht : WellFormed t)
    (hb : ∀ op ∈ batch, Safe op) : WellFormed (batch.foldl BatchOp.apply t) := by
  induction batch generalizing t with
  | nil => exact ht
  | cons op batch ih =>
    exact ih (wellFormed_apply ht (hb op (by simp))) fun op' h' => hb op' (by simp [h'])

structure Sound (w : SSDBImpl) : Prop where
  table : WellFormed w.ldb.table
  batch : ∀ op ∈ w.binlogs.batch, Safe op

end HashTable

open HashTable

namespace HashTable
open Keys

def SafeRec : Rec → Prop
  | .put key value => Safe (.put key value)
  | .delete _ => True
  | .log _ _ _ => True

theorem sound_kept {S : Rec → Prop} (hS : ∀ r, S r → SafeRec r) : Kept S Sound where
  faults _ h := ⟨h.table, h.batch⟩
  start h := ⟨h.table, fun _ hop => absurd hop List.not_mem_nil⟩
  draft {w r} hr h := by
    refine ⟨h.table, fun op hop => ?_⟩
    have hsafe := hS r hr
    have hadded {new : BatchOp} (hop : op ∈ w.binlogs.batch ++ [new]) (hnew : Safe new) : Safe op :=
      (List.mem_append.mp hop).elim (h.batch op) fun h' => List.mem_singleton.mp h' ▸ hnew
    cases r with
    | put key value => exact hadded hop hsafe
    | delete key => exact hadded hop trivial
    | log type cmd key =>
      simp only [SSDBImpl.record, BinlogQueue.recordAll, List.foldl, BinlogQueue.record,
        BinlogQueue.addLog] at hop
      split_ifs at hop
      · exact h.batch op hop
      · exact hadded hop fun hhash => absurd hhash (by decide : some DataType.SYNCLOG ≠ some DataType.HASH)
  commit h := ⟨wellFormed_batch h.table h.batch, h.batch⟩
  stop h := ⟨h.table, h.batch⟩
  write {w batch} hb h := by
    refine ⟨wellFormed_batch h.table fun op hop => ?_, h.batch⟩
    have hsafe := hS _ (hb op hop)
    cases op with
    | put key value => exact hsafe
    | delete key => trivial

theorem fixes_safe {n : Bytes} {ok : Bytes → Prop} {r : Rec} (h : SSDBImpl.Fixes n ok r) :
    SafeRec r := by
  cases r with
  | put key value =>
    rcases h with rfl | ⟨k, -, rfl | ⟨⟨s, rfl⟩, -⟩⟩
    · exact safe_put value (by decide : some DataType.ZSIZE ≠ some DataType.HASH)
    · exact safe_put value (by decide : some DataType.ZSET ≠ some DataType.HASH)
    · exact safe_put value (by decide : some DataType.ZSCORE ≠ some DataType.HASH)
  | delete key => trivial
  | log type cmd key => trivial

theorem container_safe {C : Container} {r : Rec} (h : C.Writes r) : SafeRec r := by
  cases r with
  | put key value => exact h.2.hash
  | delete key => trivial
  | log type cmd key => trivial

theorem writes_safe {c : Call} {r : Rec} (h : c.Writes r) : SafeRec r := by
  cases c with
  | hclear n => exact container_safe (C := .hash n) h
  | zfix n => exact fixes_safe h
  | flushdb =>
    obtain ⟨key, rfl⟩ := h
    trivial
  | _ =>
    obtain ⟨C, -, hr⟩ := h
    exact container_safe hr

end HashTable

namespace Call
open SSDBImpl

def Reachable (w : SSDBImpl) : Prop :=
  ∃ enabled capacity cs, w = (execAll cs (SSDBImpl.fresh enabled capacity)).2

theorem execAll_sound (cs : List (Call × Faults)) {w : SSDBImpl} (hw : Sound w) :
    Sound (execAll cs w).2 := keeps_execAll (fun _ => sound_kept fun _ => writes_safe) cs hw

theorem reachable_wellFormed {w : SSDBImpl} (h : Reachable w) : WellFormed w.ldb.table := by
  obtain ⟨enabled, capacity, cs, rfl⟩ := h
  have hfresh : Sound (SSDBImpl.fresh enabled capacity) :=
    ⟨⟨_, fields_empty⟩, by simp [SSDBImpl.fresh]⟩
  exact (execAll_sound cs hfresh).table

end Call
