import Ssdb.Library.Journal
import Ssdb.Store.Plan

namespace Keys
open Endian

theorem encodeSeqKey_lt_iff {u v : UInt64} : encodeSeqKey u < encodeSeqKey v ↔ u < v := by
  rw [encodeSeqKey, encodeSeqKey, List.cons_lt_cons_iff, memory_bigEndian64_lt]
  simp

theorem encodeSeqKey_inj {u v : UInt64} : encodeSeqKey u = encodeSeqKey v ↔ u = v := by
  refine ⟨fun h => ?_, congrArg encodeSeqKey⟩
  refine UInt64.le_antisymm (UInt64.not_lt.mp fun hlt => ?_) (UInt64.not_lt.mp fun hlt => ?_)
  · exact absurd h (encodeSeqKey_lt_iff.mpr hlt).ne'
  · exact absurd h (encodeSeqKey_lt_iff.mpr hlt).ne

theorem Binlog_inj {u v : UInt64} {type type' cmd cmd' : Byte} {key key' : Bytes} :
    Binlog u type cmd key = Binlog v type' cmd' key' ↔
      u = v ∧ type = type' ∧ cmd = cmd' ∧ key = key' := by
  constructor
  · intro h
    obtain ⟨hseq, hrest⟩ := List.append_inj h (by simp)
    obtain ⟨htype, hrest⟩ := List.cons.inj hrest
    obtain ⟨hcmd, hkey⟩ := List.cons.inj hrest
    exact ⟨memory_injective hseq, htype, hcmd, hkey⟩
  · rintro ⟨rfl, rfl, rfl, rfl⟩
    rfl

end Keys

namespace Rec

def OffLog : Rec → Prop
  | put key _ => key.head? ≠ some DataType.SYNCLOG
  | delete key => key.head? ≠ some DataType.SYNCLOG
  | log _ _ _ => True

def entry : Rec → Option (Bytes × Byte × Byte)
  | log type cmd key => some (key, type, cmd)
  | _ => none

def entries (recs : List Rec) : List (Bytes × Byte × Byte) := recs.filterMap entry

@[simp] theorem entries_nil : entries [] = [] := rfl

@[simp] theorem entries_put (key value : Bytes) (recs : List Rec) :
    entries (.put key value :: recs) = entries recs := rfl

@[simp] theorem entries_delete (key : Bytes) (recs : List Rec) :
    entries (.delete key :: recs) = entries recs := rfl

@[simp] theorem entries_log (type cmd : Byte) (key : Bytes) (recs : List Rec) :
    entries (.log type cmd key :: recs) = (key, type, cmd) :: entries recs := rfl

@[simp] theorem entries_append (a b : List Rec) : entries (a ++ b) = entries a ++ entries b :=
  List.filterMap_append

end Rec

namespace BinlogQueue
open Keys

def numbered (seq : UInt64) : List Rec → List BatchOp
  | [] => []
  | .put key value :: recs => .put key value :: numbered seq recs
  | .delete key :: recs => .delete key :: numbered seq recs
  | .log type cmd key :: recs =>
    .put (encodeSeqKey (seq + 1)) (Binlog (seq + 1) type cmd key) :: numbered (seq + 1) recs

theorem recordAll_numbered (recs : List Rec) {q : BinlogQueue} (h : q.enabled = true) :
    (q.recordAll recs).batch = q.batch ++ numbered q.tranSeq recs ∧
      (q.recordAll recs).tranSeq = q.tranSeq + UInt64.ofNat (Rec.entries recs).length := by
  induction recs generalizing q with
  | nil => simp [recordAll, numbered]
  | cons r recs ih =>
    cases r with
    | put key value =>
      obtain ⟨h1, h2⟩ := ih (q := q.record (.put key value)) h
      rw [recordAll_cons, h1, h2]
      simp [record, Put, numbered]
    | delete key =>
      obtain ⟨h1, h2⟩ := ih (q := q.record (.delete key)) h
      rw [recordAll_cons, h1, h2]
      simp [record, Delete, numbered]
    | log type cmd key =>
      have hq : q.record (.log type cmd key) = { q with
          tranSeq := q.tranSeq + 1
          batch := q.batch ++ [.put (encodeSeqKey (q.tranSeq + 1))
            (Binlog (q.tranSeq + 1) type cmd key)] } := by
        simp [record, addLog, h]
      obtain ⟨h1, h2⟩ := ih (q := q.record (.log type cmd key)) (by rw [hq]; exact h)
      rw [recordAll_cons, h1, h2, hq]
      simp only [numbered, Rec.entries_log, List.length_cons, List.append_assoc, List.singleton_append,
        true_and]
      rw [UInt64.add_assoc, UInt64.ofNat_add, UInt64.add_comm 1]
      rfl

theorem numbered_length (recs : List Rec) (seq : UInt64) : (numbered seq recs).length = recs.length := by
  induction recs generalizing seq with
  | nil => rfl
  | cons r recs ih => cases r <;> simp [numbered, ih]

section table
variable {recs : List Rec} {seq : UInt64}

theorem numbered_frame (hoff : ∀ r ∈ recs, r.OffLog)
    (hroom : seq.toNat + (Rec.entries recs).length < 2 ^ 64) (t : OrdMap Bytes Bytes) {x : UInt64}
    (hx : x ≤ seq ∨ seq.toNat + (Rec.entries recs).length < x.toNat) :
    ((numbered seq recs).foldl BatchOp.apply t).get (encodeSeqKey x) = t.get (encodeSeqKey x) := by
  induction recs generalizing seq t with
  | nil => rfl
  | cons r recs ih =>
    have hrest := fun r' h' => hoff r' (List.mem_cons_of_mem r h')
    have hfirst := hoff r (by simp)
    cases r with
    | put key value =>
      have hne : encodeSeqKey x ≠ key := by
        rintro rfl
        exact hfirst rfl
      rw [numbered, List.foldl_cons, ih hrest hroom _ hx, BatchOp.apply, OrdMap.get_insert_ne _ _ hne]
    | delete key =>
      have hne : encodeSeqKey x ≠ key := by
        rintro rfl
        exact hfirst rfl
      rw [numbered, List.foldl_cons, ih hrest hroom _ hx, BatchOp.apply, OrdMap.get_erase_ne _ hne]
    | log type cmd key =>
      have hlen : (Rec.entries (.log type cmd key :: recs)).length = (Rec.entries recs).length + 1 := rfl
      rw [hlen] at hroom hx
      have hnext : (seq + 1).toNat = seq.toNat + 1 := by
        rw [UInt64.toNat_add]
        exact Nat.mod_eq_of_lt (by change _ + 1 < _; omega)
      have hne : encodeSeqKey x ≠ encodeSeqKey (seq + 1) := by
        rw [ne_eq, encodeSeqKey_inj, ← UInt64.toNat_inj, hnext]
        rw [UInt64.le_iff_toNat_le] at hx
        omega
      have hx' : x ≤ seq + 1 ∨ (seq + 1).toNat + (Rec.entries recs).length < x.toNat := by
        rw [UInt64.le_iff_toNat_le] at hx ⊢
        omega
      rw [numbered, List.foldl_cons, ih hrest (by omega) _ hx', BatchOp.apply,
        OrdMap.get_insert_ne _ _ hne]

theorem numbered_entry (hoff : ∀ r ∈ recs, r.OffLog)
    (hroom : seq.toNat + (Rec.entries recs).length < 2 ^ 64) (t : OrdMap Bytes Bytes) {i : ℕ}
    {x : UInt64} (hx : x.toNat = seq.toNat + i + 1) {key : Bytes} {type cmd : Byte}
    (hi : (Rec.entries recs)[i]? = some (key, type, cmd)) :
    ((numbered seq recs).foldl BatchOp.apply t).get (encodeSeqKey x) =
      some (Binlog x type cmd key) := by
  induction recs generalizing seq t i with
  | nil => simp at hi
  | cons r recs ih =>
    have hrest := fun r' h' => hoff r' (List.mem_cons_of_mem r h')
    cases r with
    | put key' value => exact ih hrest hroom _ hx hi
    | delete key' => exact ih hrest hroom _ hx hi
    | log type' cmd' key' =>
      have hlen : (Rec.entries (.log type' cmd' key' :: recs)).length =
        (Rec.entries recs).length + 1 := rfl
      rw [hlen] at hroom
      have hnext : (seq + 1).toNat = seq.toNat + 1 := by
        rw [UInt64.toNat_add]
        exact Nat.mod_eq_of_lt (by change _ + 1 < _; omega)
      rw [numbered, List.foldl_cons]
      cases i with
      | zero =>
        obtain rfl : x = seq + 1 := UInt64.toNat_inj.mp (by omega)
        obtain ⟨rfl, rfl, rfl⟩ : key' = key ∧ type' = type ∧ cmd' = cmd := by simpa using hi
        rw [numbered_frame hrest (by omega) _ (.inl (UInt64.le_refl _)), BatchOp.apply,
          OrdMap.get_insert_self]
      | succ i =>
        have hx' : x.toNat = (seq + 1).toNat + i + 1 := by omega
        exact ih hrest (by omega) _ hx' (by simpa using hi)

end table

end BinlogQueue
