import Ssdb.Theory.Ranking

namespace Keys
open Strings

inductive Encoded : Bytes → Prop
  | seqKey (seq : UInt64) : Encoded (encodeSeqKey seq)
  | kvKey (key : Bytes) : Encoded (encodeKvKey key)
  | hsizeKey (name : Bytes) (h : name.length ≤ SSDB_KEY_LEN_MAX) : Encoded (encodeHsizeKey name)
  | hashKey (name key : Bytes) (h : name.length ≤ SSDB_KEY_LEN_MAX) : Encoded (encodeHashKey name key)
  | zsizeKey (name : Bytes) (h : name.length ≤ SSDB_KEY_LEN_MAX) : Encoded (encodeZsizeKey name)
  | zsetKey (name key : Bytes) (h : name.length ≤ SSDB_KEY_LEN_MAX) : Encoded (encodeZsetKey name key)
  | zscoreKey (name key score : Bytes) (h : name.length ≤ SSDB_KEY_LEN_MAX) :
      Encoded (encodeZscoreKey name key score)
  | qsizeKey (name : Bytes) (h : name.length ≤ SSDB_KEY_LEN_MAX) : Encoded (encodeQsizeKey name)
  | qitemKey (name : Bytes) (seq : UInt64) (h : name.length ≤ SSDB_KEY_LEN_MAX) :
      Encoded (encodeQitemKey name seq)

variable {name : Bytes}

theorem Encoded.zscore {key : Bytes} (h : Encoded key) (hhead : key.head? = some DataType.ZSCORE) :
    ∃ m k score, m.length ≤ SSDB_KEY_LEN_MAX ∧ key = encodeZscoreKey m k score := by
  cases h with
  | zscoreKey m k score hm => exact ⟨m, k, score, hm, rfl⟩
  | seqKey | kvKey | hsizeKey | hashKey | zsizeKey | zsetKey | qsizeKey | qitemKey =>
    exact absurd (Option.some.inj hhead) (by decide)

theorem scorePrefix_injective {m : Bytes} (hn : name.length ≤ SSDB_KEY_LEN_MAX)
    (hm : m.length ≤ SSDB_KEY_LEN_MAX) {x y : Bytes}
    (h : scorePrefix m ++ x = scorePrefix name ++ y) : m = name := by
  obtain ⟨hlen, happ⟩ := List.cons.inj (List.cons.inj h).2
  have hval := congrArg Fin.val hlen
  rw [len8_val hm, len8_val hn] at hval
  exact (List.append_inj happ hval).1

theorem encodeZscoreKey_lt (k l score score' : Bytes) :
    encodeZscoreKey name k score < encodeZscoreKey name l score' ↔
      (int64 score).toInt < (int64 score').toInt ∨
        (int64 score).toInt = (int64 score').toInt ∧ k < l := by
  have hitem := itemKey_lt name ⟨k, int64 score⟩ ⟨l, int64 score'⟩
  rw [Item.lt_iff, Int64.lt_iff_toInt_lt, ← Int64.toInt_inj] at hitem
  exact hitem

theorem encoded_between (hn : name.length ≤ SSDB_KEY_LEN_MAX) {k l score score' key : Bytes}
    (h : Encoded key) (hlow : encodeZscoreKey name k score ≤ key)
    (hhigh : key ≤ encodeZscoreKey name l score') :
    ∃ m score'', key = encodeZscoreKey name m score'' := by
  obtain ⟨y, hy⟩ : ∃ y, key = scorePrefix name ++ y :=
    Lexicographic.prefix_of_between (p := scorePrefix name)
      (a := itemBytes ⟨k, int64 score⟩) (b := itemBytes ⟨l, int64 score'⟩) hlow hhigh
  have hhead : key.head? = some DataType.ZSCORE := by
    rw [hy]
    rfl
  obtain ⟨m, a, score'', hm, rfl⟩ := h.zscore hhead
  obtain rfl : m = name :=
    scorePrefix_injective hn hm (x := itemBytes ⟨a, int64 score''⟩) hy
  exact ⟨a, score'', rfl⟩

/-- The score keys of a name are ordered as its items, lie together among all keys, and are
decoded to what they were made of. -/
theorem score_keys_embed (hn : name.length ≤ SSDB_KEY_LEN_MAX) :
    (∀ k l score score', encodeZscoreKey name k score < encodeZscoreKey name l score' ↔
        (int64 score).toInt < (int64 score').toInt ∨
          (int64 score).toInt = (int64 score').toInt ∧ k < l) ∧
      (∀ k l score score' key, Encoded key → encodeZscoreKey name k score ≤ key →
        key ≤ encodeZscoreKey name l score' → ∃ m score'', key = encodeZscoreKey name m score'') ∧
      (∀ k score, decodeZscoreKey (encodeZscoreKey name k score) =
        some (name, k, str (int64 score))) ∧
      ∀ s : Int64, int64 (str s) = s :=
  ⟨encodeZscoreKey_lt, fun _ _ _ _ _ => encoded_between hn,
    fun k score => decode_zscore_key k (int64 score) hn, int64_str⟩

theorem score_keys_embed_signs :
    let key := fun k score => encodeZscoreKey [115] k (asBytes score)
    key [255] "-1" < key [97] " +0" ∧ key [97] "0" < key [98] "-0" ∧
      decodeZscoreKey (key [98] "-007") = some ([115], [98], asBytes "-7") := by
  have hn : ([115] : Bytes).length ≤ SSDB_KEY_LEN_MAX := by decide
  obtain ⟨hlt, -, hdecode, -⟩ := score_keys_embed hn
  refine ⟨(hlt _ _ _ _).mpr (.inl (by decide)), (hlt _ _ _ _).mpr (.inr (by decide)), ?_⟩
  exact (hdecode _ _).trans (by decide)

end Keys
