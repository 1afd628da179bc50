import Ssdb.Leveldb.Dbformat
import Ssdb.Leveldb.WriteBatch
import Ssdb.Library.Walker

abbrev MemTable := OrdMap InternalKey Bytes

namespace MemTable

/-- What `Add` writes into the arena; a `size_t` is cut to 32 bits. -/
def encode (s : UInt64) (type : ValueType) (key value : Bytes) : Bytes :=
  Coding.encodeVarint32 (UInt32.ofNat (key.length + 8)) ++ key ++
    Coding.encodeFixed64 (packSequenceAndType s type) ++
    Coding.encodeVarint32 (UInt32.ofNat value.length) ++ value

def readKey (entry : Bytes) : Option (InternalKey × Bytes) := do
  let (key, rest) ← Coding.getLengthPrefixedSlice entry
  let key ← InternalKey.decode key
  return (key, rest)

def read (entry : Bytes) : Option (InternalKey × Bytes) := do
  let (key, rest) ← readKey entry
  let (value, _) ← Coding.getLengthPrefixedSlice rest
  return (key, value)

/-- An entry whose lengths were cut so that it cannot be read back is left out. -/
def add (t : MemTable) (s : UInt64) (type : ValueType) (key value : Bytes) : MemTable :=
  match read (encode s type key value) with
  | some entry => t.insert entry.1 entry.2
  | none => t

/-- `LookupKey::memtable_key` -/
def memtableKey (user_key : Bytes) (s : UInt64) : Bytes :=
  Coding.encodeVarint32 (UInt32.ofNat (user_key.length + 8)) ++ user_key ++
    Coding.encodeFixed64 (packSequenceAndType s kValueTypeForSeek)

def get (t : MemTable) (user_key : Bytes) (s : UInt64) : Option (Option Bytes) :=
  match (readKey (memtableKey user_key s)).bind fun memkey => t.least (Move.since memkey.1) with
  | none => none
  | some entry =>
    if BytewiseComparator.compare entry.1.user_key user_key = 0 then
      if entry.1.tag &&& 0xff = ValueType.kTypeValue.toUInt64 then some (some entry.2)
      else if entry.1.tag &&& 0xff = ValueType.kTypeDeletion.toUInt64 then some none
      else none
    else none

def encodeKey (target : InternalKey) : Bytes := Coding.lengthPrefixedSlice target.encode

def addOp (t : MemTable) (s : UInt64) : BatchOp → MemTable
  | .put key value => t.add s .kTypeValue key value
  | .delete key => t.add s .kTypeDeletion key []

def insertOps : UInt64 → List BatchOp → MemTable → MemTable
  | _, [], t => t
  | s, op :: ops, t => insertOps (s + 1) ops (t.addOp s op)

end MemTable

structure MemTableIterator where
  table : MemTable
  iter : Cursor InternalKey Bytes

namespace MemTableIterator

def new (table : MemTable) : MemTableIterator := ⟨table, ⟨[], []⟩⟩

def walker : Walker MemTableIterator InternalKey Bytes where
  current s := s.iter.current
  seek k s := { s with
    iter := (MemTable.readKey (MemTable.encodeKey k)).elim s.iter fun key => Cursor.seek s.table key.1 }
  seekToFirst s := { s with iter := Cursor.seekToFirst s.table }
  seekToLast s := { s with iter := Cursor.seekToLast s.table }
  next s := { s with iter := s.iter.next }
  prev s := { s with iter := s.iter.prev }

end MemTableIterator

/-- `WriteBatchInternal::InsertInto`: what was handed over before an error stays. -/
def WriteBatch.insertInto (b : WriteBatch) (t : MemTable) : MemTable × Corruption :=
  (MemTable.insertOps b.sequence b.iterate.1 t, b.iterate.2)

namespace InternalKey

def Short (k : InternalKey) : Prop := k.user_key.length + 8 < 2 ^ 32

def sequence (k : InternalKey) : ℕ := k.tag.toNat / 256

theorem parse_low {k : InternalKey} {p : ParsedInternalKey} (h : k.parse = some p) :
    k.tag &&& 0xff = p.type.toUInt64 := by
  rw [parse] at h
  split_ifs at h with h0 h1
  · obtain rfl := Option.some.inj h
    exact h0
  · obtain rfl := Option.some.inj h
    exact h1

theorem sequence_parse {k : InternalKey} {p : ParsedInternalKey} (h : k.parse = some p) :
    p.sequence.toNat = k.sequence := by
  have htag := (parse_some h).2
  have ht : p.type.toUInt64.toNat < 256 := by cases p.type <;> decide
  rw [sequence]
  omega

theorem sequence_ofParsed {p : ParsedInternalKey} (h : p.sequence ≤ kMaxSequence) :
    (ofParsed p).sequence = p.sequence.toNat := by
  have ht : p.type.toUInt64.toNat < 256 := by cases p.type <;> decide
  rw [sequence, ofParsed, pack_toNat h]
  omega

theorem reading_above {s : UInt64} {e : InternalKey × Bytes} (h : s.toNat < e.1.sequence) :
    reading s e = none := by
  cases hp : e.1.parse with
  | none => simp [reading, hp]
  | some p =>
    have hseq := sequence_parse hp
    have hnot : ¬ p.sequence ≤ s := by
      rw [UInt64.le_iff_toNat_le]
      omega
    simp [reading, hp, hnot]

theorem reading_congr {s s' : UInt64} {e : InternalKey × Bytes} (h : e.1.sequence ≤ s.toNat)
    (h' : e.1.sequence ≤ s'.toNat) : reading s e = reading s' e := by
  cases hp : e.1.parse with
  | none => simp [reading, hp]
  | some p =>
    have hseq := sequence_parse hp
    have hle : p.sequence ≤ s := UInt64.le_iff_toNat_le.mpr (by omega)
    have hle' : p.sequence ≤ s' := UInt64.le_iff_toNat_le.mpr (by omega)
    simp [reading, hp, hle, hle']

end InternalKey

namespace BatchOp

def key : BatchOp → Bytes
  | .put key _ => key
  | .delete key => key

def written : BatchOp → Option Bytes
  | .put _ value => some value
  | .delete _ => none

def after (k : Bytes) (ops : List BatchOp) (r : Option (Option Bytes)) : Option (Option Bytes) :=
  ops.foldl (fun r op => if op.key = k then some op.written else r) r

theorem after_or (k : Bytes) (ops : List BatchOp) (r x : Option (Option Bytes)) :
    (after k ops r).or x = after k ops (r.or x) := by
  induction ops generalizing r with
  | nil => rfl
  | cons op ops ih =>
    rw [after, List.foldl_cons, ← after, ih, after, after, List.foldl_cons]
    congr 1
    split_ifs <;> rfl

theorem get_after_apply (m : OrdMap Bytes Bytes) (op : BatchOp) (k : Bytes) :
    (op.apply m).get k = if op.key = k then op.written else m.get k := by
  split_ifs with h
  · subst h
    cases op with
    | put key value => exact OrdMap.get_insert_self m key value
    | delete key => exact OrdMap.get_erase_self m key
  · cases op with
    | put key value => exact OrdMap.get_insert_ne m value (Ne.symm h)
    | delete key => exact OrdMap.get_erase_ne m (Ne.symm h)

theorem get_foldl_apply {m : OrdMap Bytes Bytes} {k : Bytes} (ops : List BatchOp)
    {r : Option (Option Bytes)} (h : r.join = m.get k) :
    (after k ops r).join = (ops.foldl BatchOp.apply m).get k := by
  induction ops generalizing m r with
  | nil => exact h
  | cons op ops ih =>
    rw [after, List.foldl_cons, List.foldl_cons, ← after]
    refine ih ?_
    rw [get_after_apply]
    split_ifs
    · rfl
    · exact h

end BatchOp

namespace MemTable
variable {t : MemTable} {last s q : UInt64} {op : BatchOp} {k : Bytes}

def Upto (last : UInt64) (t : MemTable) : Prop := ∀ e ∈ t.entries, e.1.sequence ≤ last.toNat

def Typed (t : MemTable) : Prop := ∀ e ∈ t.entries, e.1.parse ≠ none

def entryOf (s : UInt64) : BatchOp → InternalKey × Bytes
  | .put key value => (InternalKey.ofParsed ⟨key, s, .kTypeValue⟩, value)
  | .delete key => (InternalKey.ofParsed ⟨key, s, .kTypeDeletion⟩, [])

theorem readKey_append {k : InternalKey} (h : k.Short) (rest : Bytes) :
    readKey (Coding.lengthPrefixedSlice k.encode ++ rest) = some (k, rest) := by
  have hlength : k.encode.length < 2 ^ 32 := by
    rw [InternalKey.encode_length]
    exact h
  rw [readKey, Coding.getLengthPrefixedSlice_append hlength]
  simp

theorem read_encode {key value : Bytes} (hkey : key.length + 8 < 2 ^ 32) (hvalue : value.length < 2 ^ 32)
    (type : ValueType) : read (encode s type key value) = some (InternalKey.ofParsed ⟨key, s, type⟩, value) := by
  have hentry : encode s type key value = Coding.lengthPrefixedSlice
      (InternalKey.ofParsed ⟨key, s, type⟩).encode ++ (Coding.lengthPrefixedSlice value ++ []) := by
    rw [Coding.lengthPrefixedSlice, InternalKey.encode_length]
    simp [encode, InternalKey.encode, InternalKey.ofParsed, Coding.lengthPrefixedSlice]
  have hshort : (InternalKey.ofParsed ⟨key, s, type⟩).Short := hkey
  rw [read, hentry, readKey_append hshort]
  dsimp only [bind, Option.bind]
  rw [Coding.getLengthPrefixedSlice_append hvalue]
  rfl

theorem readKey_memtableKey {user_key : Bytes} (h : user_key.length + 8 < 2 ^ 32) :
    readKey (memtableKey user_key s) = some (InternalKey.lookup user_key s, []) := by
  have hkey : memtableKey user_key s =
      Coding.lengthPrefixedSlice (InternalKey.lookup user_key s).encode ++ [] := by
    rw [Coding.lengthPrefixedSlice, InternalKey.encode_length]
    simp [memtableKey, InternalKey.encode, InternalKey.lookup, InternalKey.ofParsed]
  have hshort : (InternalKey.lookup user_key s).Short := h
  rw [hkey, readKey_append hshort]

theorem addOp_eq (h : op.Storable) : t.addOp s op = t.insert (entryOf s op).1 (entryOf s op).2 := by
  cases op with
  | put key value => simp only [addOp, add, read_encode h.1 h.2, entryOf]
  | delete key => simp only [addOp, add, read_encode h (by decide : ([] : Bytes).length < 2 ^ 32), entryOf]

theorem entryOf_short (h : op.Storable) : (entryOf s op).1.Short := by
  cases op with
  | put key value => exact h.1
  | delete key => exact h

theorem entryOf_sequence (hs : s ≤ kMaxSequence) : (entryOf s op).1.sequence = s.toNat := by
  cases op <;> exact InternalKey.sequence_ofParsed hs

theorem entryOf_parse (hs : s ≤ kMaxSequence) : (entryOf s op).1.parse ≠ none := by
  cases op with
  | put key value =>
    have hp := InternalKey.parse_ofParsed (p := ⟨key, s, .kTypeValue⟩) hs
    simp [entryOf, hp]
  | delete key =>
    have hp := InternalKey.parse_ofParsed (p := ⟨key, s, .kTypeDeletion⟩) hs
    simp [entryOf, hp]

theorem fresh (h : Upto last t) (hs : s ≤ kMaxSequence) (hlast : last.toNat < s.toNat) :
    OrdMap.get t (entryOf s op).1 = none := by
  refine Option.eq_none_iff_forall_ne_some.mpr fun v hv => ?_
  have hle := h _ ((OrdMap.mem_entries_iff t _ _).mpr hv)
  rw [entryOf_sequence hs] at hle
  omega

theorem Upto.addOp (hop : op.Storable) (h : Upto last t) (hs : s ≤ kMaxSequence) (hlast : last.toNat < s.toNat) :
    Upto s (t.addOp s op) := by
  intro e he
  rw [addOp_eq hop, Versions.mem_insert] at he
  rcases he with rfl | ⟨he, -⟩
  · exact (entryOf_sequence hs).le
  · exact (h e he).trans hlast.le

theorem Typed.addOp (hop : op.Storable) (h : Typed t) (hs : s ≤ kMaxSequence) : Typed (t.addOp s op) := by
  intro e he
  rw [addOp_eq hop, Versions.mem_insert] at he
  rcases he with rfl | ⟨he, -⟩
  · exact entryOf_parse hs
  · exact h e he

theorem reading_put (hs : s ≤ kMaxSequence) (key value : Bytes) :
    InternalKey.reading s (entryOf s (.put key value)) = some (some value) := by
  have hp := InternalKey.parse_ofParsed (p := ⟨key, s, .kTypeValue⟩) hs
  simp [InternalKey.reading, entryOf, hp]

theorem reading_delete (hs : s ≤ kMaxSequence) (key : Bytes) :
    InternalKey.reading s (entryOf s (.delete key)) = some none := by
  have hp := InternalKey.parse_ofParsed (p := ⟨key, s, .kTypeDeletion⟩) hs
  simp [InternalKey.reading, entryOf, hp]

theorem entryOf_first (h : Upto last t) (hs : s ≤ kMaxSequence) (hlast : last.toNat < s.toNat)
    {e : InternalKey × Bytes} (he : e ∈ t.entries)
    (hkey : e.1.user_key = (entryOf s op).1.user_key) : (entryOf s op).1 ≤ e.1 := by
  have hold := h e he
  have hnew := @entryOf_sequence s op hs
  refine (InternalKey.lt_iff.mpr (.inr ⟨hkey.symm, ?_⟩)).le
  rw [UInt64.lt_iff_toNat_lt]
  rw [InternalKey.sequence] at hold hnew
  omega

theorem newest_addOp (hop : op.Storable) (h : Upto last t) (hs : s ≤ kMaxSequence) (hlast : last.toNat < s.toNat)
    {r : Option Bytes} (hr : InternalKey.reading s (entryOf s op) = some r) :
    Versions.newest InternalKey.user_key (InternalKey.reading s) (entryOf s op).1.user_key
      (t.addOp s op).entries = some r := by
  rw [addOp_eq hop]
  exact Versions.newest_insert_first hr fun e he hkey _ => entryOf_first h hs hlast he hkey

theorem next_toNat (last : UInt64) (h : last.toNat + 1 ≤ 2 ^ 56 - 1) :
    (last + 1).toNat = last.toNat + 1 ∧ last + 1 ≤ kMaxSequence := by
  have hmax : kMaxSequence.toNat = 2 ^ 56 - 1 := by decide
  have hadd : (last + 1).toNat = last.toNat + 1 := by
    rw [UInt64.toNat_add]
    change (last.toNat + 1) % 2 ^ 64 = _
    omega
  refine ⟨hadd, UInt64.le_iff_toNat_le.mpr ?_⟩
  omega

theorem entryOf_key : (entryOf s op).1.user_key = op.key := by
  cases op <;> rfl

theorem reading_entryOf (hs : s ≤ kMaxSequence) :
    InternalKey.reading s (entryOf s op) = some op.written := by
  cases op with
  | put key value => exact reading_put hs key value
  | delete key => exact reading_delete hs key

theorem newest_addOp_above (hop : op.Storable) (h : Upto last t) (hs : s ≤ kMaxSequence)
    (hlast : last.toNat < s.toNat) (hq : s.toNat ≤ q.toNat) :
    Versions.newest InternalKey.user_key (InternalKey.reading q) k (t.addOp s op).entries =
      if op.key = k then some op.written
      else Versions.newest InternalKey.user_key (InternalKey.reading q) k t.entries := by
  split_ifs with hk
  · rw [Versions.newest_congr fun e he =>
      InternalKey.reading_congr ((h.addOp hop hs hlast e he).trans hq) (h.addOp hop hs hlast e he)]
    rw [← hk, ← @entryOf_key s]
    exact newest_addOp hop h hs hlast (reading_entryOf hs)
  · rw [addOp_eq hop, Versions.newest_insert_other]
    rwa [entryOf_key]

theorem newest_addOp_below (hop : op.Storable) (h : Upto last t) (hs : s ≤ kMaxSequence)
    (hlast : last.toNat < s.toNat) (hq : q.toNat < s.toNat) :
    Versions.newest InternalKey.user_key (InternalKey.reading q) k (t.addOp s op).entries =
      Versions.newest InternalKey.user_key (InternalKey.reading q) k t.entries := by
  have hunread : InternalKey.reading q ((entryOf s op).1, (entryOf s op).2) = none :=
    InternalKey.reading_above (by rw [entryOf_sequence hs]; exact hq)
  rw [addOp_eq hop, Versions.newest_insert_unread hunread (fresh h hs hlast)]

structure Inserted (t : MemTable) (last : UInt64) (ops : List BatchOp) (t' : MemTable) : Prop where
  typed : Typed t → Typed t'
  entries : ∀ e ∈ t'.entries, e ∈ t.entries ∨
    (last.toNat < e.1.sequence ∧ e.1.sequence ≤ last.toNat + ops.length) ∧ e.1.Short
  below : ∀ (q : UInt64) (k : Bytes), q.toNat ≤ last.toNat →
    Versions.newest InternalKey.user_key (InternalKey.reading q) k t'.entries =
      Versions.newest InternalKey.user_key (InternalKey.reading q) k t.entries
  above : ∀ (q : UInt64) (k : Bytes), last.toNat + ops.length ≤ q.toNat →
    Versions.newest InternalKey.user_key (InternalKey.reading q) k t'.entries =
      BatchOp.after k ops (Versions.newest InternalKey.user_key (InternalKey.reading q) k t.entries)

theorem insertOps_inserted {ops : List BatchOp} (hops : ∀ op ∈ ops, op.Storable) (h : Upto last t)
    (hroom : last.toNat + ops.length ≤ 2 ^ 56 - 1) : Inserted t last ops (insertOps (last + 1) ops t) := by
  induction ops generalizing last t with
  | nil => exact ⟨fun ht => ht, fun e he => .inl he, fun _ _ _ => rfl, fun _ _ _ => rfl⟩
  | cons op ops ih =>
    rw [List.length_cons] at hroom
    obtain ⟨hop, hrest⟩ := List.forall_mem_cons.mp hops
    obtain ⟨hnext, hmax⟩ := next_toNat last (by omega)
    have hlt : last.toNat < (last + 1).toNat := by omega
    have hadded : Upto (last + 1) (t.addOp (last + 1) op) := h.addOp hop hmax hlt
    obtain ⟨htyped, hentries, hbelow, habove⟩ := ih hrest hadded (by omega)
    refine ⟨fun ht => htyped (ht.addOp hop hmax), fun e he => ?_, fun q k hq => ?_, fun q k hq => ?_⟩
    · rw [List.length_cons]
      rcases hentries e he with he | ⟨⟨hlow, hhigh⟩, hshort⟩
      · rw [addOp_eq hop, Versions.mem_insert] at he
        rcases he with rfl | ⟨he, -⟩
        · rw [entryOf_sequence hmax]
          exact .inr ⟨⟨hlt, by omega⟩, entryOf_short hop⟩
        · exact .inl he
      · exact .inr ⟨⟨by omega, by omega⟩, hshort⟩
    · exact (hbelow q k (by omega)).trans (newest_addOp_below hop h hmax hlt (by omega))
    · rw [List.length_cons] at hq
      refine (habove q k (by omega)).trans ?_
      rw [newest_addOp_above hop h hmax hlt (by omega)]
      rfl

theorem insertOps_spec {ops : List BatchOp} (hops : ∀ op ∈ ops, op.Storable) (h : Upto last t)
    (hroom : last.toNat + ops.length ≤ 2 ^ 56 - 1) :
    (∀ q : UInt64, q.toNat ≤ last.toNat → snapshotView q (insertOps (last + 1) ops t) = snapshotView q t) ∧
      ∀ q : UInt64, last.toNat + ops.length ≤ q.toNat →
        snapshotView q (insertOps (last + 1) ops t) = ops.foldl BatchOp.apply (snapshotView last t) := by
  have hinserted := insertOps_inserted hops h hroom
  refine ⟨fun q hq => OrdMap.ext_get fun k => ?_, fun q hq => OrdMap.ext_get fun k => ?_⟩
  · rw [snapshotView, snapshotView, Versions.get_visible, Versions.get_visible, hinserted.below q k hq]
  · have hold : (Versions.newest InternalKey.user_key (InternalKey.reading q) k t.entries).join =
        (snapshotView last t).get k := by
      rw [snapshotView, Versions.get_visible, Versions.newest_congr fun e he =>
        InternalKey.reading_congr ((h e he).trans (by omega)) (h e he)]
    rw [snapshotView, Versions.get_visible, hinserted.above q k hq]
    exact BatchOp.get_foldl_apply ops hold

theorem reading_since {k : Bytes} {e : InternalKey × Bytes} (hs : s ≤ kMaxSequence)
    (hkey : e.1.user_key = k) (h : InternalKey.lookup k s ≤ e.1) (hp : e.1.parse ≠ none) :
    InternalKey.reading s e ≠ none := by
  obtain ⟨p, hp⟩ := Option.ne_none_iff_exists'.mp hp
  have hseq := InternalKey.sequence_parse hp
  have hpack := InternalKey.pack_toNat hs kValueTypeForSeek
  have hle : p.sequence ≤ s := by
    refine UInt64.le_iff_toNat_le.mpr ?_
    by_contra hnot
    have htag : (InternalKey.lookup k s).tag < e.1.tag := by
      rw [UInt64.lt_iff_toNat_lt, InternalKey.lookup, InternalKey.ofParsed]
      dsimp only
      rw [InternalKey.sequence] at hseq
      have hone : kValueTypeForSeek.toUInt64.toNat = 1 := by decide
      omega
    exact absurd h (not_le.mpr (InternalKey.lt_iff.mpr (.inr ⟨hkey, htag⟩)))
  cases ht : p.type <;> simp [InternalKey.reading, hp, hle, ht]

theorem switch_eq {e : InternalKey × Bytes} (h : InternalKey.reading s e ≠ none) :
    (if e.1.tag &&& 0xff = ValueType.kTypeValue.toUInt64 then some (some e.2)
      else if e.1.tag &&& 0xff = ValueType.kTypeDeletion.toUInt64 then some none
      else none) = InternalKey.reading s e := by
  rw [InternalKey.reading] at h ⊢
  cases hp : e.1.parse with
  | none => simp [hp] at h
  | some p =>
    rw [InternalKey.parse_low hp]
    by_cases hle : p.sequence ≤ s
    · cases ht : p.type <;> simp [hle, ht, ValueType.toUInt64]
    · simp [hp, hle] at h

theorem newest_eq (ht : Typed t) (hs : s ≤ kMaxSequence) (k : Bytes) :
    Versions.newest InternalKey.user_key (InternalKey.reading s) k t.entries =
      (t.least (Move.since (InternalKey.lookup k s))).bind fun e =>
        if BytewiseComparator.compare e.1.user_key k = 0 then InternalKey.reading s e else none := by
  cases hleast : t.least (Move.since (InternalKey.lookup k s)) with
  | none =>
    refine Versions.newest_eq_none_iff.mpr fun e he hkey => ?_
    by_contra hread
    have hbefore := Move.since_false_iff.mp (OrdMap.least_eq_none_iff.mp hleast e he)
    exact absurd (hkey ▸ InternalKey.lookup_le hs hread) (not_le.mpr hbefore)
  | some e =>
    obtain ⟨hmem, hsince, hfirst⟩ := OrdMap.least_eq_some_iff.mp hleast
    rw [Move.since_iff] at hsince
    rw [Option.bind_some]
    by_cases hcompare : BytewiseComparator.compare e.1.user_key k = 0
    · rw [if_pos hcompare]
      have hkey := BytewiseComparator.compare_eq.mp hcompare
      obtain ⟨r, hr⟩ := Option.ne_none_iff_exists'.mp (reading_since hs hkey hsince (ht e hmem))
      rw [hr]
      refine Versions.newest_eq_some_iff.mpr ⟨e, hmem, hkey, hr, fun e' he' hkey' hread' => hfirst e' he' ?_⟩
      exact Move.since_iff.mpr (hkey' ▸ InternalKey.lookup_le hs hread')
    · rw [if_neg hcompare]
      refine Versions.newest_eq_none_iff.mpr fun e' he' hkey' => ?_
      by_contra hread
      have hlookup := InternalKey.lookup_le hs hread
      rw [hkey'] at hlookup
      have hle := InternalKey.user_key_mono (hfirst e' he' (Move.since_iff.mpr hlookup))
      have hge : k ≤ e.1.user_key := InternalKey.user_key_mono hsince
      exact hcompare (BytewiseComparator.compare_eq.mpr (le_antisymm (hkey' ▸ hle) hge))

theorem least_reading (ht : Typed t) (hs : s ≤ kMaxSequence) {k : Bytes} {e : InternalKey × Bytes}
    (hleast : t.least (Move.since (InternalKey.lookup k s)) = some e)
    (hcompare : BytewiseComparator.compare e.1.user_key k = 0) : InternalKey.reading s e ≠ none := by
  obtain ⟨hmem, hsince, -⟩ := OrdMap.least_eq_some_iff.mp hleast
  exact reading_since hs (BytewiseComparator.compare_eq.mp hcompare) (Move.since_iff.mp hsince) (ht e hmem)

theorem get_eq (ht : Typed t) (hs : s ≤ kMaxSequence) {k : Bytes} (hk : k.length + 8 < 2 ^ 32) :
    get t k s = Versions.newest InternalKey.user_key (InternalKey.reading s) k t.entries := by
  rw [get, readKey_memtableKey hk, Option.bind_some, newest_eq ht hs]
  cases hleast : t.least (Move.since (InternalKey.lookup k s)) with
  | none => rfl
  | some e =>
    rw [Option.bind_some]
    by_cases hcompare : BytewiseComparator.compare e.1.user_key k = 0
    · rw [if_pos hcompare]
      exact (if_pos hcompare).trans (switch_eq (least_reading ht hs hleast hcompare))
    · rw [if_neg hcompare]
      exact if_neg hcompare

end MemTable

namespace WriteBatch

def Fits (groups : List (List BatchOp)) : Prop :=
  (∀ op ∈ groups.flatten, op.Storable) ∧ groups.flatten.length < 2 ^ 31

instance decidableFits (groups : List (List BatchOp)) : Decidable (Fits groups) :=
  inferInstanceAs (Decidable ((∀ op ∈ groups.flatten, op.Storable) ∧ groups.flatten.length < 2 ^ 31))

theorem insertInto_logged {groups : List (List BatchOp)} (h : Fits groups) (seq : UInt64) (t : MemTable) :
    (logged seq groups).insertInto t = (MemTable.insertOps seq groups.flatten t, none) := by
  rw [insertInto, logged_eq, iterate_layout seq fun op hop => (h.1 op hop).sized, sequence_layout]

end WriteBatch

namespace MemTableIterator

theorem walks (m : MemTable) :
    walker.WalksOn InternalKey.Short (fun s => s.table = m ∧ Cursor.Splits m s.iter) m := by
  have hmove (mv : Move InternalKey) (s : MemTableIterator) (hseek : mv.SeeksIn InternalKey.Short) :
      walker.move mv s = ⟨s.table, (Cursor.walker s.table).move mv s.iter⟩ := by
    cases mv with
    | seek k =>
      have hread := MemTable.readKey_append hseek []
      rw [List.append_nil] at hread
      simp only [Walker.move, walker, MemTable.encodeKey, hread, Option.elim_some, Cursor.walker]
    | seekToFirst | seekToLast | next | prev => rfl
  constructor
  · exact fun s e hs he => (Cursor.walks m).mem s.iter e hs.2 he
  · intro mv s hs hmv hseek
    obtain ⟨rfl, hs⟩ := hs
    rw [hmove mv s hseek]
    exact ⟨rfl, (Cursor.walks s.table).keeps mv s.iter hs hmv mv.seeksIn_true⟩
  · intro mv s hs hmv hseek
    obtain ⟨rfl, hs⟩ := hs
    rw [hmove mv s hseek]
    exact (Cursor.walks s.table).target mv s.iter hs hmv mv.seeksIn_true

end MemTableIterator
