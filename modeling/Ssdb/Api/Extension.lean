import Ssdb.Api.ObjC
import Ssdb.Library.Loop

def utf8 (text : List Char) : Bytes :=
  text.flatMap fun c => (String.utf8EncodeChar c).map fun b => b.toBitVec.toFin

theorem utf8_lt (text : List Char) : utf8 text < [255] := by
  cases text with
  | nil => exact (Lexicographic.nil_lt_iff _).mpr (List.cons_ne_nil _ _)
  | cons c text =>
    have hhead := UInt8.isUTF8FirstByte_getElem_zero_utf8EncodeChar (c := c)
    have hne : String.utf8EncodeChar c ≠ [] := String.utf8EncodeChar_ne_nil
    obtain ⟨b, bs, hbytes⟩ := List.exists_cons_of_ne_nil hne
    simp only [hbytes, List.getElem_cons_zero] at hhead
    have hb : (b.toBitVec.toFin : Byte) ≠ Fin.last 255 := fun he => by
      obtain rfl : b = 255 := UInt8.toBitVec_inj.mp (BitVec.toFin_inj.mp he)
      exact absurd hhead (by decide)
    rw [utf8, List.flatMap_cons, hbytes, List.map_cons, List.cons_append]
    exact List.cons_lt_cons_iff.mpr (.inl (lt_of_le_of_ne (Fin.le_last _) hb))

/-- `stringWithUTF8String:` reads up to a zero byte, and gives `nil` for what is not UTF-8. -/
def stringWithUTF8String (bytes : Bytes) : Option (List Char) :=
  ((cString bytes).map UInt8.ofFin).toByteArray.utf8Decode?.map Array.toList

theorem utf8_bytes (text : List Char) :
    (utf8 text).map UInt8.ofFin = text.flatMap String.utf8EncodeChar := by
  rw [utf8, List.map_flatMap]
  refine List.flatMap_congr fun c _ => ?_
  rw [List.map_map]
  exact List.map_id'' (fun _ => rfl) _

theorem zero_not_mem_utf8 {c : Char} (h : c ≠ '\x00') : 0 ∉ utf8 [c] := by
  have hc : c.val.toNat ≠ 0 := fun h0 => h (Char.ext (UInt32.toNat_inj.mp h0))
  have hbyte (n : ℕ) (h0 : n % 256 ≠ 0) : (0 : Byte) ≠ (UInt8.ofNat n).toBitVec.toFin := fun he =>
    h0 (congrArg Fin.val he).symm
  rw [utf8, List.flatMap_singleton, String.utf8EncodeChar]
  split_ifs <;> simp only [List.map_cons, List.map_nil, List.mem_cons, List.not_mem_nil, or_false,
    not_or]
  · exact hbyte _ (by omega)
  · exact ⟨hbyte _ (by omega), hbyte _ (by omega)⟩
  · exact ⟨hbyte _ (by omega), hbyte _ (by omega), hbyte _ (by omega)⟩
  · exact ⟨hbyte _ (by omega), hbyte _ (by omega), hbyte _ (by omega), hbyte _ (by omega)⟩

theorem utf8_cons (c : Char) (text : List Char) : utf8 (c :: text) = utf8 [c] ++ utf8 text := by
  rw [utf8, utf8, List.flatMap_cons, List.flatMap_singleton]
  rfl

theorem cString_utf8 (text : List Char) :
    cString (utf8 text) = utf8 (text.takeWhile (fun c => c ≠ '\x00')) := by
  induction text with
  | nil => rfl
  | cons c text ih =>
    by_cases h : c = '\x00'
    · rw [h]
      rfl
    · have hkeep : ∀ b ∈ utf8 [c], decide (b ≠ 0) = true := fun b hb =>
        decide_eq_true fun h0 => zero_not_mem_utf8 h (h0 ▸ hb)
      have htake : (c :: text).takeWhile (fun c => c ≠ '\x00') =
          c :: text.takeWhile (fun c => c ≠ '\x00') := List.takeWhile_cons_of_pos (decide_eq_true h)
      rw [htake, utf8_cons c text, utf8_cons c (text.takeWhile _), ← ih, cString, List.takeWhile_append_of_pos hkeep]
      rfl

theorem stringWithUTF8String_utf8 {text : List Char} (h : '\x00' ∉ text) :
    stringWithUTF8String (utf8 text) = some text := by
  have hall : text.takeWhile (fun c => c ≠ '\x00') = text :=
    List.takeWhile_eq_self_iff.mpr fun c hc => decide_eq_true fun h0 => h (h0 ▸ hc)
  have hencode : (text.flatMap String.utf8EncodeChar).toByteArray = text.utf8Encode := rfl
  rw [stringWithUTF8String, cString_utf8, hall, utf8_bytes, hencode, List.utf8Decode?_utf8Encode]
  rfl

theorem utf8_injective {s t : List Char} (h : utf8 s = utf8 t) : s = t := by
  have hbytes : s.utf8Encode = t.utf8Encode := by
    rw [List.utf8Encode, List.utf8Encode, ← utf8_bytes, ← utf8_bytes, h]
  have hdecode := congrArg (fun b => b.utf8Decode?.map Array.toList) hbytes
  simp only [List.utf8Decode?_utf8Encode, Option.map_some] at hdecode
  exact Option.some.inj hdecode

namespace SSDB
open SSDBImpl

def qSize (table : Bytes) : M Int64 := qsize (cString table)

/-- A round of the `for` of `qClear:`, whose `int` is converted to compare it with the size. -/
def qClearRound (key : Bytes) (size : UInt64) (s : Int32 × SSDBImpl) :
    (Int32 × SSDBImpl) ⊕ SSDBImpl :=
  if s.1.toInt64.toUInt64 < size then .inl (s.1 + 1, (qpopFront key BinlogType.SYNC s.2).2)
  else .inr s.2

/-- `qClear:` called on `w` returns and leaves `w'`. -/
def qClear (aKey : Bytes) (w w' : SSDBImpl) : Prop :=
  let (size, w) := qSize aKey w
  Loop.Exits (qClearRound (cString aKey) size.toUInt64) (0, w) w'

def zClearRound (key : Bytes) (s : ZIterator × SSDBImpl) : (ZIterator × SSDBImpl) ⊕ SSDBImpl :=
  let (iterator, w) := s
  let w :=
    if iterator.key.length ≠ 0 ∧ iterator.score.length ≠ 0 then
      (zdel key iterator.key BinlogType.SYNC w).2
    else w
  match iterator.next with
  | (true, iterator) => .inl (iterator, w)
  | (false, _) => .inr w

def zClear (aKey : Bytes) (w w' : SSDBImpl) : Prop :=
  Loop.Exits (zClearRound (cString aKey)) (zscan (cString aKey) [] [] [] (-1) w) w'

def hSet (table aValue aKey : Bytes) : M Unit := do
  let _ ← hset (cString table) (cString aKey) aValue BinlogType.SYNC
  return ()

def hDel (table aKey : Bytes) : M Unit := do
  let _ ← hdel (cString table) (cString aKey) BinlogType.SYNC
  return ()

def hSize (table : Bytes) : M Int64 := SSDBImpl.hsize (cString table)

/-- A round of the `do` of the methods that go through a table; in the first one the iterator has
no field yet. `visit` gives nothing when an exception leaves the method. -/
def fieldRound {α : Type} (visit : Bytes → Bytes → α → Option α) (s : HIterator × α) :
    (HIterator × α) ⊕ Option α :=
  let (iterator, found) := s
  let found :=
    if iterator.key.length ≠ 0 ∧ iterator.val.length ≠ 0 then visit iterator.key iterator.val found
    else some found
  match found with
  | none => .inr none
  | some found =>
    match iterator.next with
    | (true, iterator) => .inl (iterator, found)
    | (false, _) => .inr (some found)

/-- `addObject:` or `insertObject:atIndex:0` of the key; both raise an exception for `nil`. -/
def putKey (atEnd : Bool) (key _val : Bytes) (array : List (List Char)) : Option (List (List Char)) :=
  (stringWithUTF8String key).map fun key => if atEnd then array ++ [key] else key :: array

def hGetStringSortedKeyAscending (table : Bytes) (count : Int64) (ascending : Bool) (w : SSDBImpl)
    (r : Option (List (List Char))) : Prop :=
  let name := cString table
  let iterator := if ascending then hscan name [] [] count.toUInt64
    else hrscan name [] [] count.toUInt64
  Loop.Exits (fieldRound (putKey ascending)) ((iterator w).1, []) r

def hGetStringSortedKeyDescending (table : Bytes) (count : Int64) (descending : Bool)
    (w : SSDBImpl) (r : Option (List (List Char))) : Prop :=
  let name := cString table
  let iterator := if !descending then hscan name [] [] count.toUInt64
    else hrscan name [] [] count.toUInt64
  Loop.Exits (fieldRound (putKey descending)) ((iterator w).1, []) r

def putData (key val : Bytes) (dic : OrdMap (List Char) Bytes) : Option (OrdMap (List Char) Bytes) :=
  match stringWithUTF8String key with
  | none => some dic
  | some key => some (dic.insert key val)

def hGetAllData (table : Bytes) (w : SSDBImpl) (r : Option (OrdMap (List Char) Bytes)) : Prop :=
  Loop.Exits (fieldRound putData) ((hscan (cString table) [] [] (-1) w).1, OrdMap.empty) r

def qPush (table aValue : Bytes) : M UInt64 := do
  let count ← qpushBack (cString table) aValue BinlogType.SYNC
  return count.toUInt64

def qPushFront (table aValue : Bytes) : M UInt64 := do
  let count ← qpushFront (cString table) aValue BinlogType.SYNC
  return count.toUInt64

def qSet (table aValue : Bytes) (index : Int64) : M Unit := do
  let _ ← qset (cString table) index aValue BinlogType.SYNC
  return ()

structure Gather where
  i : Int64
  value : Bytes
  values : List Bytes
deriving DecidableEq, Repr

def gatherRound (more : Int64 → Bool) (step : Int64 → Int64)
    (add : Bytes → List Bytes → List Bytes) (read : Int64 → M (Int × Option Bytes))
    (s : Gather × SSDBImpl) : (Gather × SSDBImpl) ⊕ (List Bytes × SSDBImpl) :=
  let (v, w) := s
  if more v.i then
    let ((_, item), w) := read v.i w
    let value := item.getD v.value
    .inl (⟨step v.i, value, if value.length ≠ 0 then add value v.values else v.values⟩, w)
  else .inr (v.values, w)

/-- The `for` from an offset upward: `i < MIN(offset + count, size)`, compared as `NSUInteger`. -/
def upRound (offset : Int64) (count size : UInt64) :=
  gatherRound (fun i => i.toUInt64 < min (offset.toUInt64 + count) size) (fun i => i + 1)
    fun value values => values ++ [value]

/-- The `for` from an offset downward: `i > MAX(offset - count, -size-1)`, compared as
`NSUInteger`. -/
def downRound (offset : Int64) (count size : UInt64) :=
  gatherRound (fun i => i.toUInt64 > max (offset.toUInt64 - count) (-size - 1)) (fun i => i - 1)
    fun value values => value :: values

def qRange (table : Bytes) (offset : Int64) (count : UInt64) (w : SSDBImpl)
    (r : List Bytes × SSDBImpl) : Prop :=
  let (size, w) := qSize table w
  if offset ≥ 0 then
    Loop.Exits (upRound offset count size.toUInt64 (qget (cString table))) (⟨offset, [], []⟩, w) r
  else
    Loop.Exits (downRound offset count size.toUInt64 (qget (cString table))) (⟨offset, [], []⟩, w) r

def qPop (table : Bytes) (offset : Int64) (count : UInt64) (w : SSDBImpl)
    (r : List Bytes × SSDBImpl) : Prop :=
  let (size, w) := qSize table w
  if offset ≥ 0 then
    Loop.Exits (upRound offset count size.toUInt64
      fun _ => qpopFront (cString table) BinlogType.SYNC) (⟨offset, [], []⟩, w) r
  else
    Loop.Exits (downRound offset count size.toUInt64
      fun _ => qpopBack (cString table) BinlogType.SYNC) (⟨offset, [], []⟩, w) r

end SSDB
