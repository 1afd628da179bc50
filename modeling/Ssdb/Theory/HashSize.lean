import Ssdb.Theory.HashClear
import Ssdb.Theory.Runs

namespace Call

def onHash : Call → Bool
  | hset _ _ _ _ | hdel _ _ _ | hincr _ _ _ _ | hclear _ => true
  | _ => false

end Call

namespace HashTable
open Keys SSDBImpl

variable {H : HashTable} {counted : Prop} {w : SSDBImpl} {n k : Bytes} {t : Byte}

theorem hset_holds (v : Bytes) (h : Holds counted w H) (hw : w.faults = Faults.none) :
    Holds counted (hset n k v t w).2 (H.set n k v) := by
  have hget : w.faults.get = [] := by rw [hw]; rfl
  exact h.step (hset_result v h.fields hget (by simp [hw, Faults.none])) (hset_sequence n k v t hget)

theorem hdel_holds (h : Holds counted w H) (hw : w.faults = Faults.none) :
    Holds counted (hdel n k t w).2 (H.remove n k) := by
  have hget : w.faults.get = [] := by rw [hw]; rfl
  exact h.step (hdel_result h.fields hget (by simp [hw, Faults.none])) (hdel_sequence n k t hget)

theorem hincr_state (amount : Int64) (hget : w.faults.get = []) :
    (∃ v, (hincr n k amount t w).2 = (hset n k v t w).2) ∨ (hincr n k amount t w).2.ldb = w.ldb := by
  rw [hincr_plan n k amount t hget, hincrPlan]
  have hset (newVal : Int64) :
      (((hsetPlan w.ldb n k (Strings.str newVal) t).map (incrReply newVal)).run w).2 =
        (hset n k (Strings.str newVal) t w).2 := by
    rw [Plan.run_map, hset_plan n k _ t hget]
  cases w.ldb.table.get (encodeHashKey n k) with
  | none => exact .inl ⟨_, hset amount⟩
  | some old =>
    dsimp only
    split_ifs
    · exact .inl ⟨_, hset _⟩
    · exact .inr rfl

theorem exec_holds {c : Call} (hc : c.onHash = true) (h : Holds counted w H) :
    ∃ H', Holds counted (c.exec .none w).2 H' := by
  have h0 : Holds counted { w with faults := Faults.none } H := h.same rfl
  cases c with
  | hset n k v t => exact ⟨_, (hset_holds v h0 rfl).same rfl⟩
  | hdel n k t => exact ⟨_, (hdel_holds h0 rfl).same rfl⟩
  | hincr n k amount t =>
    rcases hincr_state (n := n) (k := k) (t := t) (w := { w with faults := Faults.none })
      amount rfl with ⟨v, hv⟩ | hldb
    · have hldb := congrArg SSDBImpl.ldb hv
      exact ⟨_, (hset_holds v h0 rfl).same hldb⟩
    · exact ⟨H, h.same hldb⟩
  | hclear n =>
    rcases hclear_cleared (n := n) h0 rfl with ⟨-, H', hH', -⟩ | ⟨-, -, -, H', hH', -⟩
    · exact ⟨H', hH'.same rfl⟩
    · exact ⟨H', hH'.same rfl⟩
  | _ => exact absurd hc (by simp [Call.onHash])

theorem fresh_holds (enabled : Bool) (capacity : Int32) :
    Holds counted (SSDBImpl.fresh enabled capacity) (fun _ => OrdMap.empty) where
  fields := fields_empty
  sizes _ _ n := by
    refine (LevelDB.data_eq (hsizeKey_data n)).trans ?_
    rfl

theorem after_holds {cs : List Call} (hcs : ∀ c ∈ cs, c.onHash = true) (enabled : Bool)
    (capacity : Int32) :
    ∃ H, Holds counted (Call.after cs (SSDBImpl.fresh enabled capacity)) H :=
  Call.after_invariant (P := fun w => ∃ H, Holds counted w H)
    (fun _ _ hc ⟨_, h⟩ => exec_holds hc h) hcs ⟨_, fresh_holds enabled capacity⟩

theorem hget_reply (hF : Fields w.ldb.data H) (hw : w.faults = Faults.none) (n k : Bytes) :
    (hget n k w).1 = match (H n).get k with
      | none => (0, none)
      | some v => (1, some v) := by
  have hread : (hget n k w).1 = w.ldb.readRecord (encodeHashKey n k) := by
    rw [hget, getRecord_apply _ (by rw [hw]; rfl)]
  have hrecord := (hash_get n k w.ldb).trans (hF.field n k)
  cases hk : (H n).get k with
  | none => simp only [hread, LevelDB.readRecord, hrecord, hk]
  | some v => simp only [hread, LevelDB.readRecord, hrecord, hk]

theorem hget_one_iff (hF : Fields w.ldb.data H) (hw : w.faults = Faults.none) (n k : Bytes) :
    (hget n k w).1.1 = 1 ↔ (H n).get k ≠ none := by
  rw [hget_reply hF hw]
  cases (H n).get k <;> simp

theorem hsize_reply (hS : Sizes w.ldb.data H) (hw : w.faults = Faults.none)
    (hb : (H n).size < 2 ^ 63) : (hsize n w).1.toInt = (H n).size := by
  have hget : w.ldb.table.get (encodeHsizeKey n) = counter (H n).size := by rw [hsize_get, hS n]
  rw [hsize, getCount_apply _ (by rw [hw]; rfl), Counter.readCount_counter hb hget,
    Counter.ofNat_toInt hb]

theorem setReply_one_iff {d : Bytes → Option Bytes} (hF : Fields d H) (v : Bytes) :
    H.setReply n k = 1 ↔ ¬(H n).get k ≠ none ∧ ((H.set n k v) n).get k ≠ none := by
  by_cases ha : Admitted n k
  · cases hg : (H n).get k <;> simp [setReply, set, ha, hg, get_put]
  · simp [setReply, set, ha, hF.get_none ha]

theorem setReply_zero_iff {d : Bytes → Option Bytes} (hF : Fields d H) :
    H.setReply n k = 0 ↔ (H n).get k ≠ none := by
  by_cases ha : Admitted n k
  · cases hg : (H n).get k <;> simp [setReply, ha, hg]
  · simp [setReply, ha, hF.get_none ha]

theorem delReply_one_iff {d : Bytes → Option Bytes} (hF : Fields d H) :
    H.delReply n k = 1 ↔ (H n).get k ≠ none := by
  cases hg : (H n).get k with
  | none =>
    rw [delReply, hg, if_pos rfl]
    split_ifs <;> simp
  | some v =>
    have ha := hF.admitted n k (by simp [hg])
    have hshort : ¬(n.length > SSDB_KEY_LEN_MAX ∨ k.length > SSDB_KEY_LEN_MAX) :=
      not_or.mpr ⟨not_lt.mpr ha.2.2.1, not_lt.mpr ha.2.2.2⟩
    rw [delReply, if_neg hshort, hg]
    simp

/-- After any run of writes to hashes: the size record counts the fields, and the return codes of
the next `hset` or `hdel` tell whether the field was there. -/
theorem hash_size_law (enabled : Bool) (capacity : Int32) (cs : List Call)
    (hcs : ∀ c ∈ cs, c.onHash = true) (name : Bytes) :
    let w := Call.after cs (SSDBImpl.fresh enabled capacity)
    (w.ldb.sequence ≤ kMaxSequenceNumber →
      ∃ fields : Finset Bytes, (∀ key, key ∈ fields ↔ (hget name key w).1.1 = 1) ∧
        (hsize name w).1.toInt = fields.card ∧
        (w.ldb.table.get (encodeHsizeKey name) ≠ none ↔ 0 < fields.card)) ∧
      ∀ (key val : Bytes) (t : Byte),
        ((hset name key val t w).1 = 1 ↔
          (hget name key w).1.1 ≠ 1 ∧ (hget name key (hset name key val t w).2).1.1 = 1) ∧
        ((hset name key val t w).1 = 0 ↔ (hget name key w).1.1 = 1) ∧
        ((hdel name key t w).1 = 1 ↔ (hget name key w).1.1 = 1) := by
  intro w
  have hafter : ∃ H, Holds True w H := after_holds hcs enabled capacity
  obtain ⟨H, hH⟩ := hafter
  have hw : w.faults = Faults.none := Call.after_faults cs rfl
  refine ⟨fun hseq => ⟨(H name).keys.toFinset, fun key => ?_, ?_, ?_⟩, fun key val t => ?_⟩
  · rw [List.mem_toFinset, OrdMap.mem_keys_iff, hget_one_iff hH.fields hw]
  · have hb := hH.bound hseq name
    rw [← OrdMap.size_eq_card]
    exact hsize_reply (hH.sizes trivial hseq) hw (by omega)
  · rw [← OrdMap.size_eq_card, hsize_get, hH.sizes trivial hseq name, counter]
    split_ifs with h0
    · simp [h0]
    · simp [Nat.pos_of_ne_zero h0]
  · have hget : w.faults.get = [] := by rw [hw]; rfl
    have hok : w.faults.write.head? ≠ some true := by simp [hw, Faults.none]
    have hset := hset_result (n := name) (k := key) (t := t) val hH.fields hget hok
    have hdel := hdel_result (n := name) (k := key) (t := t) hH.fields hget hok
    have hfaults : (SSDBImpl.hset name key val t w).2.faults = Faults.none := by
      rw [hset_plan name key val t hget]
      exact (Plan.run_answered w _ hw).2
    rw [ne_eq, hget_one_iff hH.fields hw, hget_one_iff hset.fields hfaults, hset.reply, hdel.reply]
    exact ⟨setReply_one_iff hH.fields val, setReply_zero_iff hH.fields, delReply_one_iff hH.fields⟩

theorem hash_size_law_two_fields :
    let w := Call.after [.hset [104] [97] [49] 1, .hset [104] [98] [50] 1] (SSDBImpl.fresh true 1000)
    ∃ fields : Finset Bytes, (∀ key, key ∈ fields ↔ (hget [104] key w).1.1 = 1) ∧
      (hsize [104] w).1.toInt = fields.card ∧
      (w.ldb.table.get (encodeHsizeKey [104]) ≠ none ↔ 0 < fields.card) :=
  (hash_size_law true 1000 [.hset [104] [97] [49] 1, .hset [104] [98] [50] 1] (by decide) [104]).1
    (by decide)

end HashTable
