import Ssdb.Leveldb.Coding
import Ssdb.Store.LevelDB

structure WriteBatch where
  rep : Bytes
deriving DecidableEq, Repr

abbrev Corruption := Option String

namespace WriteBatch

def kHeader : ℕ := 12

def kTypeDeletion : Byte := 0

def kTypeValue : Byte := 1

def clear : WriteBatch := ⟨List.replicate kHeader 0⟩

def count (b : WriteBatch) : Int32 := (Coding.decodeFixed32 (b.rep.drop 8)).toInt32

def setCount (b : WriteBatch) (n : Int32) : WriteBatch :=
  ⟨b.rep.take 8 ++ Coding.encodeFixed32 n.toUInt32 ++ b.rep.drop kHeader⟩

def sequence (b : WriteBatch) : UInt64 := Coding.decodeFixed64 b.rep

def setSequence (b : WriteBatch) (seq : UInt64) : WriteBatch :=
  ⟨Coding.encodeFixed64 seq ++ b.rep.drop 8⟩

def put (b : WriteBatch) (key value : Bytes) : WriteBatch :=
  ⟨(b.setCount (b.count + 1)).rep ++ [kTypeValue] ++ Coding.lengthPrefixedSlice key ++
    Coding.lengthPrefixedSlice value⟩

def delete (b : WriteBatch) (key : Bytes) : WriteBatch :=
  ⟨(b.setCount (b.count + 1)).rep ++ [kTypeDeletion] ++ Coding.lengthPrefixedSlice key⟩

def append (dst src : WriteBatch) : WriteBatch :=
  ⟨(dst.setCount (dst.count + src.count)).rep ++ src.rep.drop kHeader⟩

def iterateLoop : ℕ → Bytes → List BatchOp × Corruption
  | 0, _ => ([], none)
  | _ + 1, [] => ([], none)
  | n + 1, tag :: input =>
    if tag = kTypeValue then
      match Coding.getLengthPrefixedSlice input with
      | none => ([], some "bad WriteBatch Put")
      | some (key, input) =>
        match Coding.getLengthPrefixedSlice input with
        | none => ([], some "bad WriteBatch Put")
        | some (value, input) =>
          let rest := iterateLoop n input
          (.put key value :: rest.1, rest.2)
    else if tag = kTypeDeletion then
      match Coding.getLengthPrefixedSlice input with
      | none => ([], some "bad WriteBatch Delete")
      | some (key, input) =>
        let rest := iterateLoop n input
        (.delete key :: rest.1, rest.2)
    else ([], some "unknown WriteBatch tag")

def iterate (b : WriteBatch) : List BatchOp × Corruption :=
  if b.rep.length < kHeader then ([], some "malformed WriteBatch (too small)")
  else
    let found := iterateLoop b.rep.length (b.rep.drop kHeader)
    match found.2 with
    | some msg => (found.1, some msg)
    | none =>
      if Int32.ofNat found.1.length ≠ b.count then (found.1, some "WriteBatch has wrong count")
      else (found.1, none)

def apply (b : WriteBatch) : BatchOp → WriteBatch
  | .put key value => b.put key value
  | .delete key => b.delete key

def ofOps (ops : List BatchOp) : WriteBatch := ops.foldl apply clear

/-- The `result` of `BuildBatchGroup` for these batches. -/
def group : List WriteBatch → WriteBatch
  | [] => clear
  | [b] => b
  | bs => bs.foldl append clear

end WriteBatch

def BatchOp.Sized : BatchOp → Prop
  | .put key value => key.length < 2 ^ 32 ∧ value.length < 2 ^ 32
  | .delete key => key.length < 2 ^ 32

instance BatchOp.decidableSized (op : BatchOp) : Decidable op.Sized :=
  match op with
  | .put key value => inferInstanceAs (Decidable (key.length < 2 ^ 32 ∧ value.length < 2 ^ 32))
  | .delete key => inferInstanceAs (Decidable (key.length < 2 ^ 32))

def BatchOp.Storable : BatchOp → Prop
  | .put key value => key.length + 8 < 2 ^ 32 ∧ value.length < 2 ^ 32
  | .delete key => key.length + 8 < 2 ^ 32

instance BatchOp.decidableStorable (op : BatchOp) : Decidable op.Storable :=
  match op with
  | .put key value =>
    inferInstanceAs (Decidable (key.length + 8 < 2 ^ 32 ∧ value.length < 2 ^ 32))
  | .delete key => inferInstanceAs (Decidable (key.length + 8 < 2 ^ 32))

theorem BatchOp.Storable.sized {op : BatchOp} (h : op.Storable) : op.Sized := by
  cases op with
  | put key value => exact ⟨(Nat.le_add_right _ 8).trans_lt h.1, h.2⟩
  | delete key => exact (Nat.le_add_right _ 8).trans_lt h

def BatchOp.record : BatchOp → Bytes
  | .put key value => WriteBatch.kTypeValue :: (Coding.lengthPrefixedSlice key ++
      Coding.lengthPrefixedSlice value)
  | .delete key => WriteBatch.kTypeDeletion :: Coding.lengthPrefixedSlice key

def BatchOp.records (ops : List BatchOp) : Bytes := ops.flatMap BatchOp.record

namespace WriteBatch

def layout (seq : UInt64) (n : Int32) (data : Bytes) : WriteBatch :=
  ⟨Coding.encodeFixed64 seq ++ (Coding.encodeFixed32 n.toUInt32 ++ data)⟩

variable (seq : UInt64) (n : Int32) (data : Bytes)

@[simp] theorem encodeFixed32_length (v : UInt32) : (Coding.encodeFixed32 v).length = 4 := by
  simp [Coding.encodeFixed32]

@[simp] theorem encodeFixed64_length : (Coding.encodeFixed64 seq).length = 8 := by
  simp [Coding.encodeFixed64]

theorem drop_sequence : (layout seq n data).rep.drop 8 = Coding.encodeFixed32 n.toUInt32 ++ data :=
  List.drop_left' (encodeFixed64_length seq)

theorem drop_header : (layout seq n data).rep.drop kHeader = data := by
  have hadd : kHeader = 8 + 4 := rfl
  rw [hadd, ← List.drop_drop, drop_sequence, List.drop_left' (encodeFixed32_length _)]

theorem layout_length : (layout seq n data).rep.length = kHeader + data.length := by
  simp only [layout, List.length_append, encodeFixed64_length, encodeFixed32_length, kHeader]
  omega

theorem clear_eq : clear = layout 0 0 [] := by decide

@[simp] theorem count_layout : (layout seq n data).count = n := by
  have hn : n.toUInt32.toNat < 256 ^ 4 := n.toUInt32.toNat_lt
  rw [count, drop_sequence, Coding.decodeFixed32, List.take_left' (encodeFixed32_length _),
    Coding.encodeFixed32, List.reverse_reverse, FixedWidth.value_bigEndian 256 hn,
    UInt32.ofNat_toNat]
  rfl

@[simp] theorem sequence_layout : (layout seq n data).sequence = seq := by
  rw [sequence, Coding.decodeFixed64, layout, List.take_left' (encodeFixed64_length seq)]
  exact Endian.ofMemory_memory seq

theorem setCount_layout (m : Int32) : (layout seq n data).setCount m = layout seq m data := by
  rw [setCount, drop_header]
  simp only [layout]
  rw [List.take_left' (encodeFixed64_length seq), List.append_assoc]

theorem setSequence_layout (s : UInt64) : (layout seq n data).setSequence s = layout s n data := by
  rw [setSequence, drop_sequence]
  rfl

theorem apply_layout (op : BatchOp) :
    (layout seq n data).apply op = layout seq (n + 1) (data ++ op.record) := by
  cases op with
  | put key value =>
    rw [apply, put, count_layout, setCount_layout]
    simp [layout, BatchOp.record]
  | delete key =>
    rw [apply, delete, count_layout, setCount_layout]
    simp [layout, BatchOp.record]

theorem append_layout (s : UInt64) (m : Int32) (more : Bytes) :
    (layout seq n data).append (layout s m more) = layout seq (n + m) (data ++ more) := by
  rw [append, count_layout, count_layout, setCount_layout, drop_header]
  simp [layout]

theorem ofOps_eq (ops : List BatchOp) :
    ofOps ops = layout 0 (Int32.ofNat ops.length) (BatchOp.records ops) := by
  have hfold (ops : List BatchOp) (n : ℕ) (data : Bytes) :
      ops.foldl apply (layout 0 (Int32.ofNat n) data) =
        layout 0 (Int32.ofNat (n + ops.length)) (data ++ BatchOp.records ops) := by
    induction ops generalizing n data with
    | nil => simp [BatchOp.records]
    | cons op ops ih =>
      have hone : Int32.ofNat n + 1 = Int32.ofNat (n + 1) := (Int32.ofNat_add n 1).symm
      rw [List.foldl_cons, apply_layout, hone, ih, List.append_assoc, List.length_cons,
        Nat.add_right_comm, Nat.add_assoc]
      rfl
  have hall := hfold ops 0 []
  rw [Nat.zero_add, List.nil_append] at hall
  rw [ofOps, clear_eq, ← hall]
  rfl

theorem count_ofOps (ops : List BatchOp) : (ofOps ops).count = Int32.ofNat ops.length := by
  rw [ofOps_eq, count_layout]

theorem foldl_append_eq (groups : List (List BatchOp)) (n : ℕ) (data : Bytes) :
    (groups.map ofOps).foldl append (layout 0 (Int32.ofNat n) data) =
      layout 0 (Int32.ofNat (n + groups.flatten.length)) (data ++ BatchOp.records groups.flatten) := by
  induction groups generalizing n data with
  | nil => simp [BatchOp.records]
  | cons ops groups ih =>
    have hsum : Int32.ofNat n + Int32.ofNat ops.length = Int32.ofNat (n + ops.length) :=
      (Int32.ofNat_add n ops.length).symm
    rw [List.map_cons, List.foldl_cons, ofOps_eq, append_layout, hsum, ih, List.flatten_cons,
      List.length_append, Nat.add_assoc, List.append_assoc, BatchOp.records, BatchOp.records,
      BatchOp.records, List.flatMap_append]

theorem group_eq (groups : List (List BatchOp)) :
    group (groups.map ofOps) = ofOps groups.flatten := by
  cases groups with
  | nil => rfl
  | cons first groups =>
    cases groups with
    | nil => simp [group]
    | cons second groups =>
      have hfold := foldl_append_eq (first :: second :: groups) 0 []
      rw [Nat.zero_add, List.nil_append] at hfold
      rw [ofOps_eq, ← hfold]
      change ((first :: second :: groups).map ofOps).foldl append clear = _
      rw [clear_eq]
      rfl

variable {op : BatchOp} {ops : List BatchOp}

theorem record_pos (op : BatchOp) : 0 < op.record.length := by
  cases op <;> exact Nat.succ_pos _

theorem iterateLoop_record (h : op.Sized) (k : ℕ) (rest : Bytes) :
    iterateLoop (k + 1) (op.record ++ rest) =
      (op :: (iterateLoop k rest).1, (iterateLoop k rest).2) := by
  cases op with
  | put key value =>
    rw [BatchOp.record, List.cons_append, iterateLoop, if_pos rfl, List.append_assoc,
      Coding.getLengthPrefixedSlice_append h.1]
    dsimp only
    rw [Coding.getLengthPrefixedSlice_append h.2]
  | delete key =>
    rw [BatchOp.record, List.cons_append, iterateLoop, if_neg (by decide), if_pos rfl,
      Coding.getLengthPrefixedSlice_append h]

theorem iterateLoop_cut (h : op.Sized) (k : ℕ) {m : ℕ} (hm : m + 1 < op.record.length) :
    (iterateLoop (k + 1) (op.record.take (m + 1))).2 ≠ none ∧
      (iterateLoop (k + 1) (op.record.take (m + 1))).1 = [] := by
  cases op with
  | put key value =>
    rw [BatchOp.record, List.length_cons, Nat.succ_lt_succ_iff, List.length_append] at hm
    rw [BatchOp.record, List.take_succ_cons, iterateLoop, if_pos rfl, List.take_append]
    rcases lt_or_ge m (Coding.lengthPrefixedSlice key).length with hlt | hge
    · rw [Nat.sub_eq_zero_of_le hlt.le, List.take_zero, List.append_nil,
        Coding.getLengthPrefixedSlice_cut h.1 hlt]
      simp
    · rw [List.take_of_length_le hge, Coding.getLengthPrefixedSlice_append h.1]
      dsimp only
      rw [Coding.getLengthPrefixedSlice_cut h.2 (by omega)]
      simp
  | delete key =>
    rw [BatchOp.record, List.length_cons, Nat.succ_lt_succ_iff] at hm
    rw [BatchOp.record, List.take_succ_cons, iterateLoop, if_neg (by decide), if_pos rfl,
      Coding.getLengthPrefixedSlice_cut h hm]
    simp

theorem records_cons (op : BatchOp) (ops : List BatchOp) :
    BatchOp.records (op :: ops) = op.record ++ BatchOp.records ops := by
  rw [BatchOp.records, List.flatMap_cons, BatchOp.records]

theorem iterateLoop_records (h : ∀ op ∈ ops, op.Sized) {k : ℕ}
    (hk : (BatchOp.records ops).length ≤ k) : iterateLoop k (BatchOp.records ops) = (ops, none) := by
  induction ops generalizing k with
  | nil => cases k <;> rfl
  | cons op ops ih =>
    have hpos := record_pos op
    rw [records_cons, List.length_append] at hk
    obtain ⟨k, rfl⟩ : ∃ k', k = k' + 1 := ⟨k - 1, by omega⟩
    rw [records_cons, iterateLoop_record (h op (by simp)),
      ih (fun o ho => h o (by simp [ho])) (by omega)]

theorem iterateLoop_records_cut (h : ∀ op ∈ ops, op.Sized) {k m : ℕ} (hk : m ≤ k)
    (hm : m < (BatchOp.records ops).length) :
    (iterateLoop k ((BatchOp.records ops).take m)).1.length < ops.length := by
  induction ops generalizing k m with
  | nil => exact absurd hm (Nat.not_lt_zero m)
  | cons op ops ih =>
    rw [records_cons] at hm ⊢
    cases m with
    | zero =>
      rw [List.take_zero]
      cases k <;> exact Nat.succ_pos _
    | succ m =>
      obtain ⟨k, rfl⟩ : ∃ k', k = k' + 1 := ⟨k - 1, by omega⟩
      have hsized := h op (by simp)
      rcases lt_or_ge (m + 1) op.record.length with hlt | hge
      · rw [List.take_append_of_le_length hlt.le, (iterateLoop_cut hsized k hlt).2]
        exact Nat.succ_pos _
      · have hpos := record_pos op
        rw [List.length_append] at hm
        rw [List.take_append, List.take_of_length_le hge, iterateLoop_record hsized]
        exact Nat.succ_lt_succ (ih (fun o ho => h o (by simp [ho])) (by omega) (by omega))

theorem count_toUInt64 {k : ℕ} (h : k < 2 ^ 31) : (Int32.ofNat k).toInt64.toUInt64 = UInt64.ofNat k := by
  have hmax : Int32.maxValue.toInt = 2 ^ 31 - 1 := by decide
  rw [Int32.toInt64_ofNat' (by omega)]
  rfl

def logged (groups : List (List BatchOp)) : WriteBatch :=
  (group (groups.map ofOps)).setSequence seq

theorem logged_eq (groups : List (List BatchOp)) : logged seq groups =
    layout seq (Int32.ofNat groups.flatten.length) (BatchOp.records groups.flatten) := by
  rw [logged, group_eq, ofOps_eq, setSequence_layout]

theorem iterate_layout (h : ∀ op ∈ ops, op.Sized) :
    (layout seq (Int32.ofNat ops.length) (BatchOp.records ops)).iterate = (ops, none) := by
  have hfuel : (BatchOp.records ops).length ≤
      (layout seq (Int32.ofNat ops.length) (BatchOp.records ops)).rep.length := by
    rw [layout_length]
    omega
  have hread := iterateLoop_records h hfuel
  rw [iterate, if_neg (by rw [layout_length]; omega), drop_header, hread]
  simp

theorem layout_take (k : ℕ) :
    (layout seq n data).rep.take (kHeader + k) = (layout seq n (data.take k)).rep := by
  have hadd : kHeader + k = 8 + (4 + k) := by
    rw [kHeader]
    omega
  have h8 := encodeFixed64_length seq
  have h4 := encodeFixed32_length n.toUInt32
  rw [hadd, layout, layout]
  dsimp only
  rw [← h8, List.take_length_add_append, ← h4, List.take_length_add_append]

theorem iterate_cut (h : ∀ op ∈ ops, op.Sized) (hops : ops.length < 2 ^ 31) {m : ℕ}
    (hm : m < (layout seq (Int32.ofNat ops.length) (BatchOp.records ops)).rep.length) :
    (iterate ⟨(layout seq (Int32.ofNat ops.length) (BatchOp.records ops)).rep.take m⟩).2 ≠ none := by
  rw [layout_length] at hm
  rcases lt_or_ge m kHeader with hlt | hge
  · rw [iterate, if_pos]
    · simp
    · rw [List.length_take, layout_length]
      omega
  · obtain ⟨k, rfl⟩ : ∃ k, m = kHeader + k := ⟨m - kHeader, by omega⟩
    have hcut := iterateLoop_records_cut h
      (k := (layout seq (Int32.ofNat ops.length) ((BatchOp.records ops).take k)).rep.length) (m := k)
      (by rw [layout_length, List.length_take]; omega) (by omega)
    rw [layout_take]
    change (iterate (layout seq (Int32.ofNat ops.length) ((BatchOp.records ops).take k))).2 ≠ none
    rw [iterate, if_neg (by rw [layout_length]; omega), drop_header, count_layout]
    generalize iterateLoop (layout seq (Int32.ofNat ops.length)
      ((BatchOp.records ops).take k)).rep.length ((BatchOp.records ops).take k) = found at hcut
    obtain ⟨got, msg⟩ := found
    cases msg with
    | some msg => simp
    | none =>
      have hne : Int32.ofNat got.length ≠ Int32.ofNat ops.length := by
        intro heq
        have hval := congrArg Int32.toInt heq
        rw [Int32.toInt_ofNat_of_lt (hcut.trans hops), Int32.toInt_ofNat_of_lt hops] at hval
        exact hcut.ne (Int.ofNat.inj hval)
      simp [hne]

/-- Batches grouped into one and numbered are read back as the updates of all of them in turn, and
no part of the batch that is cut off goes unnoticed. -/
theorem grouped_batches_exact (groups : List (List BatchOp))
    (hsized : ∀ op ∈ groups.flatten, op.Sized) (hcount : groups.flatten.length < 2 ^ 31) :
    (logged seq groups).iterate = (groups.flatten, none) ∧ (logged seq groups).sequence = seq ∧
      (logged seq groups).count.toInt = groups.flatten.length ∧
      ∀ m < (logged seq groups).rep.length,
        (iterate ⟨(logged seq groups).rep.take m⟩).2 ≠ none := by
  rw [logged_eq]
  refine ⟨iterate_layout seq hsized, sequence_layout _ _ _, ?_, fun m hm => ?_⟩
  · rw [count_layout, Int32.toInt_ofNat_of_lt hcount]
  · exact iterate_cut seq hsized hcount hm

theorem grouped_batches_exact_two :
    (logged 7 [[.put [1] [2, 3]], [.delete [1]]]).iterate = ([.put [1] [2, 3], .delete [1]], none) := by
  have hsized : ∀ op ∈ [[BatchOp.put [1] [2, 3]], [.delete [1]]].flatten, op.Sized := by decide
  exact (grouped_batches_exact 7 [[.put [1] [2, 3]], [.delete [1]]] hsized (by decide)).1

end WriteBatch
