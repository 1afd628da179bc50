import Ssdb.Util.Strings

namespace DataType

def SYNCLOG : Byte := 1
def KV : Byte := Strings.charByte 'k'
def HASH : Byte := Strings.charByte 'h'
def HSIZE : Byte := Strings.charByte 'H'
def ZSET : Byte := Strings.charByte 's'
def ZSCORE : Byte := Strings.charByte 'z'
def ZSIZE : Byte := Strings.charByte 'Z'
def QUEUE : Byte := Strings.charByte 'q'
def QSIZE : Byte := Strings.charByte 'Q'

end DataType

namespace Keys
open Strings Endian

def SSDB_KEY_LEN_MAX : ℕ := 255

def len8 (b : Bytes) : Byte := Fin.ofNat 256 b.length

def equalSign : Byte := charByte '='
def minusSign : Byte := charByte '-'

def encodeSeqKey (seq : UInt64) : Bytes := DataType.SYNCLOG :: memory (bigEndian64 seq)

def decodeSeqKey (key : Bytes) : UInt64 :=
  if key.length = 9 ∧ key.head? = some DataType.SYNCLOG then bigEndian64 (ofMemory (key.drop 1))
  else 0

def encodeKvKey (key : Bytes) : Bytes := DataType.KV :: key

def decodeKvKey (slice : Bytes) : Option Bytes := do
  let p ← Decoder.skip 1 slice
  return (Decoder.readData p).1

def encodeHsizeKey (name : Bytes) : Bytes := DataType.HSIZE :: name

def decodeHsizeKey (slice : Bytes) : Option Bytes := do
  let p ← Decoder.skip 1 slice
  return (Decoder.readData p).1

def encodeHashKey (name key : Bytes) : Bytes :=
  DataType.HASH :: len8 name :: (name ++ equalSign :: key)

def decodeHashKey (slice : Bytes) : Option (Bytes × Bytes) := do
  let p ← Decoder.skip 1 slice
  let (name, p) ← Decoder.read8Data p
  let p ← Decoder.skip 1 p
  return (name, (Decoder.readData p).1)

def encodeZsizeKey (name : Bytes) : Bytes := DataType.ZSIZE :: name

def decodeZsizeKey (slice : Bytes) : Option Bytes := do
  let p ← Decoder.skip 1 slice
  return (Decoder.readData p).1

def encodeZsetKey (name key : Bytes) : Bytes :=
  DataType.ZSET :: len8 name :: (name ++ len8 key :: key)

def decodeZsetKey (slice : Bytes) : Option (Bytes × Bytes) := do
  let p ← Decoder.skip 1 slice
  let (name, p) ← Decoder.read8Data p
  let (key, _) ← Decoder.read8Data p
  return (name, key)

def encodeScore (s : Int64) : UInt64 := bigEndian64 s.toUInt64

def decodeScore (s : Int64) : Int64 := (bigEndian64 s.toUInt64).toInt64

def scoreBytes (s : Int64) : Bytes :=
  (if s < 0 then minusSign else equalSign) :: memory (encodeScore s)

def zscoreKey (key val : Bytes) (s : Int64) : Bytes :=
  DataType.ZSCORE :: len8 key :: (key ++ (scoreBytes s ++ equalSign :: val))

def encodeZscoreKey (key val score : Bytes) : Bytes := zscoreKey key val (int64 score)

def decodeZscoreKey (slice : Bytes) : Option (Bytes × Bytes × Bytes) := do
  let p ← Decoder.skip 1 slice
  let (name, p) ← Decoder.read8Data p
  let p ← Decoder.skip 1 p
  let (s, p) ← Decoder.readInt64 p
  let p ← Decoder.skip 1 p
  return (name, (Decoder.readData p).1, str (decodeScore s))

def encodeQsizeKey (name : Bytes) : Bytes := DataType.QSIZE :: name

def decodeQsizeKey (slice : Bytes) : Option Bytes := do
  let p ← Decoder.skip 1 slice
  return (Decoder.readData p).1

def encodeQitemKey (name : Bytes) (seq : UInt64) : Bytes :=
  DataType.QUEUE :: len8 name :: (name ++ memory (bigEndian64 seq))

def decodeQitemKey (slice : Bytes) : Option (Bytes × UInt64) := do
  let p ← Decoder.skip 1 slice
  let (name, p) ← Decoder.read8Data p
  let (seq, _) ← Decoder.readUint64 p
  return (name, bigEndian64 seq)

theorem len8_val {b : Bytes} (h : b.length ≤ SSDB_KEY_LEN_MAX) : (len8 b).val = b.length :=
  Nat.mod_eq_of_lt (by simpa [SSDB_KEY_LEN_MAX, Nat.lt_succ_iff] using h)

theorem named_injective {n m x y : Bytes} (hn : n.length ≤ SSDB_KEY_LEN_MAX)
    (hxy : x.length < y.length + 256) (h : len8 n :: (n ++ x) = len8 m :: (m ++ y)) :
    n = m ∧ x = y := by
  obtain ⟨hlen, happ⟩ := List.cons.inj h
  have hmod : n.length % 256 = m.length % 256 := congrArg Fin.val hlen
  have htot := congrArg List.length happ
  simp only [List.length_append] at htot
  have heq : n.length = m.length := by
    rw [SSDB_KEY_LEN_MAX] at hn
    omega
  exact List.append_inj happ heq

theorem encodeHashKey_injective {n m k l : Bytes} (hn : n.length ≤ SSDB_KEY_LEN_MAX)
    (hk : k.length ≤ SSDB_KEY_LEN_MAX) (h : encodeHashKey n k = encodeHashKey m l) :
    n = m ∧ k = l := by
  rw [SSDB_KEY_LEN_MAX] at hk
  obtain ⟨h1, h2⟩ := named_injective hn (by simp; omega) (List.cons.inj h).2
  exact ⟨h1, (List.cons.inj h2).2⟩

theorem encodeZsetKey_injective {n m k l : Bytes} (hn : n.length ≤ SSDB_KEY_LEN_MAX)
    (hk : k.length ≤ SSDB_KEY_LEN_MAX) (h : encodeZsetKey n k = encodeZsetKey m l) :
    n = m ∧ k = l := by
  rw [SSDB_KEY_LEN_MAX] at hk
  obtain ⟨h1, h2⟩ := named_injective hn (by simp; omega) (List.cons.inj h).2
  exact ⟨h1, (List.cons.inj h2).2⟩

@[simp] theorem scoreBytes_length (s : Int64) : (scoreBytes s).length = 9 := by simp [scoreBytes]

theorem scoreBytes_injective {s t : Int64} (h : scoreBytes s = scoreBytes t) : s = t := by
  have hm := memory_injective (List.cons.inj h).2
  have hu : s.toUInt64 = t.toUInt64 := by
    rw [← bigEndian64_bigEndian64 s.toUInt64, ← bigEndian64_bigEndian64 t.toUInt64]
    exact congrArg bigEndian64 hm
  rw [← Int64.toInt64_toUInt64 s, hu, Int64.toInt64_toUInt64]

theorem zscoreKey_injective {n m k l : Bytes} {s t : Int64} (hn : n.length ≤ SSDB_KEY_LEN_MAX)
    (hk : k.length ≤ SSDB_KEY_LEN_MAX) (h : zscoreKey n k s = zscoreKey m l t) :
    n = m ∧ k = l ∧ s = t := by
  rw [SSDB_KEY_LEN_MAX] at hk
  obtain ⟨h1, h2⟩ := named_injective hn (by simp; omega) (List.cons.inj h).2
  obtain ⟨h3, h4⟩ := List.append_inj h2 (by simp)
  exact ⟨h1, (List.cons.inj h4).2, scoreBytes_injective h3⟩

theorem encodeQitemKey_injective {n m : Bytes} {s t : UInt64}
    (h : encodeQitemKey n s = encodeQitemKey m t) : n = m ∧ s = t := by
  have happ := (List.cons.inj (List.cons.inj h).2).2
  have hlen : n.length = m.length := by simpa using congrArg List.length happ
  obtain ⟨h1, h2⟩ := List.append_inj happ hlen
  refine ⟨h1, ?_⟩
  rw [← bigEndian64_bigEndian64 s, memory_injective h2, bigEndian64_bigEndian64]

theorem skip_cons (c : Byte) (b : Bytes) : Decoder.skip 1 (c :: b) = some b := by
  simp [Decoder.skip]

theorem read8Data_append {a : Bytes} (b : Bytes) (h : a.length ≤ SSDB_KEY_LEN_MAX) :
    Decoder.read8Data (len8 a :: (a ++ b)) = some (a, b) := by
  simp [Decoder.read8Data, len8_val h]

theorem readUint64_memory (v : UInt64) (b : Bytes) :
    Decoder.readUint64 (memory v ++ b) = some (v, b) := by
  have ht : (memory v ++ b).take 8 = memory v := by
    rw [List.take_append_of_le_length (by simp), List.take_of_length_le (by simp)]
  have hd : (memory v ++ b).drop 8 = b := by simp
  simp [Decoder.readUint64, ht, hd]

@[simp] theorem decode_kv_key (key : Bytes) : decodeKvKey (encodeKvKey key) = some key := by
  simp [decodeKvKey, encodeKvKey, skip_cons, Decoder.readData]

@[simp] theorem decode_hsize_key (name : Bytes) :
    decodeHsizeKey (encodeHsizeKey name) = some name := by
  simp [decodeHsizeKey, encodeHsizeKey, skip_cons, Decoder.readData]

@[simp] theorem decode_zsize_key (name : Bytes) :
    decodeZsizeKey (encodeZsizeKey name) = some name := by
  simp [decodeZsizeKey, encodeZsizeKey, skip_cons, Decoder.readData]

@[simp] theorem decode_qsize_key (name : Bytes) :
    decodeQsizeKey (encodeQsizeKey name) = some name := by
  simp [decodeQsizeKey, encodeQsizeKey, skip_cons, Decoder.readData]

theorem decode_hash_key {name : Bytes} (key : Bytes) (h : name.length ≤ SSDB_KEY_LEN_MAX) :
    decodeHashKey (encodeHashKey name key) = some (name, key) := by
  simp [decodeHashKey, encodeHashKey, skip_cons, read8Data_append _ h, Decoder.readData]

theorem decode_zset_key {name key : Bytes} (h : name.length ≤ SSDB_KEY_LEN_MAX)
    (hk : key.length ≤ SSDB_KEY_LEN_MAX) :
    decodeZsetKey (encodeZsetKey name key) = some (name, key) := by
  have h2 := read8Data_append [] hk
  rw [List.append_nil] at h2
  simp [decodeZsetKey, encodeZsetKey, skip_cons, read8Data_append _ h, h2]

theorem decode_zscore_key {name : Bytes} (key : Bytes) (s : Int64)
    (h : name.length ≤ SSDB_KEY_LEN_MAX) :
    decodeZscoreKey (zscoreKey name key s) = some (name, key, str s) := by
  simp [decodeZscoreKey, zscoreKey, skip_cons, read8Data_append _ h, scoreBytes,
    Decoder.readInt64, readUint64_memory, Decoder.readData, decodeScore, encodeScore]

theorem decode_qitem_key {name : Bytes} (seq : UInt64) (h : name.length ≤ SSDB_KEY_LEN_MAX) :
    decodeQitemKey (encodeQitemKey name seq) = some (name, seq) := by
  have h2 := readUint64_memory (bigEndian64 seq) []
  rw [List.append_nil] at h2
  simp [decodeQitemKey, encodeQitemKey, skip_cons, read8Data_append _ h, h2]

end Keys
