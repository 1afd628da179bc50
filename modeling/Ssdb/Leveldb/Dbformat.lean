import Ssdb.Leveldb.Coding
import Ssdb.Library.Versions

namespace BytewiseComparator

/-- `Slice::compare`, of which callers read the sign. -/
def compare : Bytes → Bytes → ℤ
  | [], [] => 0
  | [], _ :: _ => -1
  | _ :: _, [] => 1
  | a :: as, b :: bs => if a < b then -1 else if b < a then 1 else compare as bs

variable {a b : Bytes}

theorem compare_spec : (compare a b < 0 ↔ a < b) ∧ (compare a b = 0 ↔ a = b) := by
  induction a generalizing b with
  | nil => cases b <;> simp [compare]
  | cons x a ih =>
    cases b with
    | nil => simp [compare]
    | cons y b =>
      rw [compare, List.cons_lt_cons_iff, List.cons.injEq]
      rcases lt_trichotomy x y with h | rfl | h
      · simp [h, h.ne]
      · simpa using ih
      · simp [h, h.ne', not_lt.mpr h.le]

theorem compare_lt : compare a b < 0 ↔ a < b := compare_spec.1

theorem compare_eq : compare a b = 0 ↔ a = b := compare_spec.2

theorem compare_gt : 0 < compare a b ↔ b < a := by
  obtain ⟨hlt, heq⟩ := @compare_spec a b
  rw [← not_le, Int.le_iff_lt_or_eq, hlt, heq, ← le_iff_lt_or_eq, not_le]

end BytewiseComparator

inductive ValueType where
  | kTypeDeletion
  | kTypeValue
deriving DecidableEq, Repr

def ValueType.toUInt64 : ValueType → UInt64
  | .kTypeDeletion => 0
  | .kTypeValue => 1

def kValueTypeForSeek : ValueType := .kTypeValue

def kMaxSequence : UInt64 := ((0x1 : UInt64) <<< (56 : UInt64)) - 1

def packSequenceAndType (seq : UInt64) (t : ValueType) : UInt64 := (seq <<< 8) ||| t.toUInt64

structure ParsedInternalKey where
  user_key : Bytes
  sequence : UInt64
  type : ValueType
deriving DecidableEq, Repr

structure InternalKey where
  user_key : Bytes
  tag : UInt64
deriving DecidableEq, Repr

namespace InternalKey

def encode (k : InternalKey) : Bytes := k.user_key ++ Coding.encodeFixed64 k.tag

def extractUserKey (internal_key : Bytes) : Bytes := internal_key.take (internal_key.length - 8)

def extractTag (internal_key : Bytes) : UInt64 :=
  Coding.decodeFixed64 (internal_key.drop (internal_key.length - 8))

def decode (internal_key : Bytes) : Option InternalKey :=
  if internal_key.length < 8 then none
  else some ⟨extractUserKey internal_key, extractTag internal_key⟩

/-- `AppendInternalKey` -/
def ofParsed (key : ParsedInternalKey) : InternalKey :=
  ⟨key.user_key, packSequenceAndType key.sequence key.type⟩

/-- `ParseInternalKey` -/
def parse (k : InternalKey) : Option ParsedInternalKey :=
  let c := k.tag &&& 0xff
  if c = 0 then some ⟨k.user_key, k.tag >>> 8, .kTypeDeletion⟩
  else if c = 1 then some ⟨k.user_key, k.tag >>> 8, .kTypeValue⟩
  else none

/-- `InternalKeyComparator::Compare` -/
def compare (akey bkey : Bytes) : ℤ :=
  let r := BytewiseComparator.compare (extractUserKey akey) (extractUserKey bkey)
  if r = 0 then
    if extractTag akey > extractTag bkey then -1
    else if extractTag akey < extractTag bkey then 1
    else r
  else r

def rank (k : InternalKey) : Bytes ×ₗ ℕᵒᵈ := toLex (k.user_key, OrderDual.toDual k.tag.toNat)

theorem rank_injective : Function.Injective rank := by
  intro a b h
  obtain ⟨ua, ta⟩ := a
  obtain ⟨ub, tb⟩ := b
  obtain ⟨hu, ht⟩ := Prod.mk.inj (toLex.injective h)
  have htag := OrderDual.toDual.injective ht
  simp only at hu htag
  rw [hu, UInt64.toNat.inj htag]

instance instLinearOrder : LinearOrder InternalKey := LinearOrder.lift' rank rank_injective

variable {a b k : InternalKey}

theorem lt_iff : a < b ↔ a.user_key < b.user_key ∨ a.user_key = b.user_key ∧ b.tag < a.tag := by
  change rank a < rank b ↔ _
  rw [rank, rank, Prod.Lex.toLex_lt_toLex, OrderDual.toDual_lt_toDual, UInt64.lt_iff_toNat_lt]

theorem user_key_mono : Monotone user_key := by
  intro a b h
  rcases h.lt_or_eq with hlt | rfl
  · rcases lt_iff.mp hlt with hu | hu
    · exact hu.le
    · exact hu.1.le
  · exact le_rfl

@[simp] theorem encode_length : k.encode.length = k.user_key.length + 8 := by
  simp [encode, Coding.encodeFixed64]

@[simp] theorem extractUserKey_encode : extractUserKey k.encode = k.user_key := by
  rw [extractUserKey, encode_length, Nat.add_sub_cancel, encode, List.take_left]

@[simp] theorem extractTag_encode : extractTag k.encode = k.tag := by
  rw [extractTag, encode_length, Nat.add_sub_cancel, encode, List.drop_left, Coding.decodeFixed64,
    Coding.encodeFixed64, List.take_of_length_le (by simp), Endian.ofMemory_memory]

@[simp] theorem decode_encode : decode k.encode = some k := by
  rw [decode, if_neg (by simp), extractUserKey_encode, extractTag_encode]

theorem compare_encode :
    (compare a.encode b.encode < 0 ↔ a < b) ∧ (compare a.encode b.encode = 0 ↔ a = b) := by
  obtain ⟨ua, ta⟩ := a
  obtain ⟨ub, tb⟩ := b
  have hu := @BytewiseComparator.compare_spec ua ub
  simp only [compare, extractUserKey_encode, extractTag_encode, lt_iff, InternalKey.mk.injEq]
  split_ifs with hr hgt hlt
  · obtain rfl := hu.2.mp hr
    simp only [lt_irrefl, true_and, false_or, gt_iff_lt] at hgt ⊢
    exact ⟨by simp [hgt], by simpa using fun h => UInt64.ne_of_lt hgt h.symm⟩
  · obtain rfl := hu.2.mp hr
    simp only [lt_irrefl, true_and, false_or, gt_iff_lt] at hgt ⊢
    exact ⟨by simp [hgt], by simpa using fun h => UInt64.ne_of_lt hlt h⟩
  · obtain rfl := hu.2.mp hr
    have htag : ta = tb := UInt64.le_antisymm (UInt64.not_lt.mp hgt) (UInt64.not_lt.mp hlt)
    simp [hr, htag]
  · have hne : ua ≠ ub := fun h => hr (hu.2.mpr h)
    simp [hu.1, hu.2, hne]

theorem pack_toNat {seq : UInt64} (hseq : seq ≤ kMaxSequence) (t : ValueType) :
    (packSequenceAndType seq t).toNat = seq.toNat * 256 + t.toUInt64.toNat := by
  have hmax : kMaxSequence.toNat = 2 ^ 56 - 1 := by decide
  have hle : seq.toNat ≤ 2 ^ 56 - 1 := hmax ▸ UInt64.le_iff_toNat_le.mp hseq
  have ht : t.toUInt64.toNat < 2 ^ 8 := by cases t <;> decide
  have hshift : (seq <<< 8).toNat = seq.toNat * 2 ^ 8 := by
    rw [UInt64.toNat_shiftLeft, Nat.shiftLeft_eq]
    change seq.toNat * 2 ^ 8 % 2 ^ 64 = _
    omega
  rw [packSequenceAndType, UInt64.toNat_or, hshift, Nat.or_comm, Endian.or_eq_add 8 ht]
  omega

theorem parse_some {p : ParsedInternalKey} (h : k.parse = some p) :
    p.user_key = k.user_key ∧ k.tag.toNat = p.sequence.toNat * 256 + p.type.toUInt64.toNat := by
  have hlow : (k.tag &&& 0xff).toNat = k.tag.toNat % 256 := by
    rw [UInt64.toNat_and]
    exact Nat.and_two_pow_sub_one_eq_mod k.tag.toNat 8
  have hhigh : (k.tag >>> 8).toNat = k.tag.toNat / 256 := by
    rw [UInt64.toNat_shiftRight, Nat.shiftRight_eq_div_pow]
    rfl
  rw [parse] at h
  split_ifs at h with h0 h1
  · obtain rfl := Option.some.inj h
    rw [h0] at hlow
    refine ⟨rfl, ?_⟩
    change k.tag.toNat = (k.tag >>> 8).toNat * 256 + 0
    change 0 = k.tag.toNat % 256 at hlow
    omega
  · obtain rfl := Option.some.inj h
    rw [h1] at hlow
    refine ⟨rfl, ?_⟩
    change k.tag.toNat = (k.tag >>> 8).toNat * 256 + 1
    change 1 = k.tag.toNat % 256 at hlow
    omega

theorem parse_ofParsed {p : ParsedInternalKey} (hseq : p.sequence ≤ kMaxSequence) :
    (ofParsed p).parse = some p := by
  obtain ⟨u, seq, t⟩ := p
  have hpack := pack_toNat hseq t
  have hlow : (packSequenceAndType seq t &&& 0xff) = t.toUInt64 := by
    apply UInt64.toNat.inj
    rw [UInt64.toNat_and, hpack]
    have hmod := Nat.and_two_pow_sub_one_eq_mod (seq.toNat * 256 + t.toUInt64.toNat) 8
    change (seq.toNat * 256 + t.toUInt64.toNat) &&& (2 ^ 8 - 1) = _
    have ht : t.toUInt64.toNat < 2 ^ 8 := by cases t <;> decide
    omega
  have hhigh : packSequenceAndType seq t >>> 8 = seq := by
    apply UInt64.toNat.inj
    rw [UInt64.toNat_shiftRight, Nat.shiftRight_eq_div_pow, hpack]
    change (seq.toNat * 256 + t.toUInt64.toNat) / 2 ^ 8 = _
    have ht : t.toUInt64.toNat < 2 ^ 8 := by cases t <;> decide
    omega
  simp only [parse, ofParsed, hlow, hhigh]
  cases t <;> rfl

/-- `LookupKey::internal_key` -/
def lookup (user_key : Bytes) (sequence : UInt64) : InternalKey :=
  ofParsed ⟨user_key, sequence, kValueTypeForSeek⟩

def earliest (user_key : Bytes) : InternalKey := lookup user_key kMaxSequence

def reading (sequence : UInt64) (e : InternalKey × Bytes) : Option (Option Bytes) :=
  match e.1.parse with
  | none => none
  | some ikey =>
    if ikey.sequence ≤ sequence then
      match ikey.type with
      | .kTypeDeletion => some none
      | .kTypeValue => some (some e.2)
    else none

theorem lookup_le {sequence : UInt64} {e : InternalKey × Bytes} (hseq : sequence ≤ kMaxSequence)
    (h : reading sequence e ≠ none) : lookup e.1.user_key sequence ≤ e.1 := by
  rw [reading] at h
  cases hp : e.1.parse with
  | none => simp [hp] at h
  | some ikey =>
    have hle : ikey.sequence ≤ sequence := by
      by_contra hnot
      simp [hp, hnot] at h
    obtain ⟨-, htag⟩ := parse_some hp
    have hpack := pack_toNat hseq kValueTypeForSeek
    have htype : ikey.type.toUInt64.toNat ≤ kValueTypeForSeek.toUInt64.toNat := by
      cases ikey.type <;> decide
    rw [UInt64.le_iff_toNat_le] at hle
    refine not_lt.mp fun hlt => ?_
    rcases lt_iff.mp hlt with hu | ⟨-, hless⟩
    · exact absurd hu (lt_irrefl _)
    · have hmore := UInt64.lt_iff_toNat_lt.mp hless
      change (packSequenceAndType sequence kValueTypeForSeek).toNat < e.1.tag.toNat at hmore
      omega

end InternalKey

def snapshotView (sequence : UInt64) (m : OrdMap InternalKey Bytes) : OrdMap Bytes Bytes :=
  Versions.visible (InternalKey.reading sequence) InternalKey.user_key_mono m
