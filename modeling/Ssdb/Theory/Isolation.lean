import Ssdb.Theory.Frames
import Ssdb.Theory.HashClear
import Ssdb.Theory.Ranking
import Ssdb.Theory.Shaped

namespace Container
open Keys
open HashTable (Admitted)

def Sees : Container → Bytes → Prop
  | kv keys, key => ∃ k ∈ keys, key = encodeKvKey k
  | hash n, key => key = encodeHsizeKey n ∨ ∃ k, key = encodeHashKey n k
  | zset n, key => key = encodeZsizeKey n ∨ (∃ k, key = encodeZsetKey n k) ∨
      n.length ≤ SSDB_KEY_LEN_MAX ∧ ∃ y, key = scorePrefix n ++ y
  | queue n, key => key = encodeQsizeKey n ∨ ∃ seq, key = encodeQitemKey n seq

def Apart : Container → Container → Prop
  | kv keys, kv keys' => keys.Disjoint keys'
  | C, D => C ≠ D

theorem sees_head {D : Container} {key : Bytes} (h : D.Sees key) :
    ∃ b ∈ D.heads, key.head? = some b := by
  cases D with
  | kv keys =>
    obtain ⟨k, -, rfl⟩ := h
    exact ⟨DataType.KV, by simp [heads], rfl⟩
  | hash n =>
    rcases h with rfl | ⟨k, rfl⟩
    · exact ⟨DataType.HSIZE, by simp [heads], rfl⟩
    · exact ⟨DataType.HASH, by simp [heads], rfl⟩
  | zset n =>
    rcases h with rfl | ⟨k, rfl⟩ | ⟨-, y, rfl⟩
    · exact ⟨DataType.ZSIZE, by simp [heads], rfl⟩
    · exact ⟨DataType.ZSET, by simp [heads], rfl⟩
    · exact ⟨DataType.ZSCORE, by simp [heads], rfl⟩
  | queue n =>
    rcases h with rfl | ⟨seq, rfl⟩
    · exact ⟨DataType.QSIZE, by simp [heads], rfl⟩
    · exact ⟨DataType.QUEUE, by simp [heads], rfl⟩

theorem sees_data {D : Container} {key : Bytes} (h : D.Sees key) :
    key.head? ≠ some DataType.SYNCLOG := by
  obtain ⟨b, hb, hkey⟩ := sees_head h
  intro hlog
  obtain rfl : b = DataType.SYNCLOG := Option.some.inj (hkey.symm.trans hlog)
  exact heads_data D hb

theorem apart_sees {C D : Container} (h : C.Apart D) {key : Bytes} (hC : C.Owns key) :
    ¬D.Sees key := by
  intro hD
  have hheads : ∃ b, b ∈ C.heads ∧ b ∈ D.heads := by
    obtain ⟨b, hb, hkey⟩ := owns_head hC
    obtain ⟨b', hb', hkey'⟩ := sees_head hD
    exact ⟨b, hb, Option.some.inj (hkey.symm.trans hkey') ▸ hb'⟩
  have hbytes : ∀ C' D' : Container, (C'.heads.any fun b => D'.heads.contains b) = false →
      ¬∃ b, b ∈ C'.heads ∧ b ∈ D'.heads := by
    rintro C' D' hnone ⟨b, hb, hb'⟩
    have hcontra := List.any_eq_false.mp hnone b hb
    exact hcontra (List.contains_iff_mem.mpr hb')
  cases C with
  | kv keys =>
    cases D with
    | kv keys' =>
      obtain ⟨k, hk, rfl⟩ := hC
      obtain ⟨k', hk', he⟩ := hD
      obtain rfl : k = k' := (List.cons.inj he).2
      exact h hk hk'
    | hash m => exact hbytes (.kv []) (.hash []) (by decide) hheads
    | zset m => exact hbytes (.kv []) (.zset []) (by decide) hheads
    | queue m => exact hbytes (.kv []) (.queue []) (by decide) hheads
  | hash n =>
    cases D with
    | hash m =>
      have hne : n ≠ m := fun he => h (congrArg hash he)
      rcases hC with rfl | ⟨k, hn, hk, rfl⟩
      · rcases hD with he | ⟨l, he⟩
        · exact hne (List.cons.inj he).2
        · exact absurd (congrArg List.head? he) (by decide : some DataType.HSIZE ≠ some DataType.HASH)
      · rcases hD with he | ⟨l, he⟩
        · exact absurd (congrArg List.head? he) (by decide : some DataType.HASH ≠ some DataType.HSIZE)
        · exact hne (encodeHashKey_injective hn hk he).1
    | kv keys => exact hbytes (.hash []) (.kv []) (by decide) hheads
    | zset m => exact hbytes (.hash []) (.zset []) (by decide) hheads
    | queue m => exact hbytes (.hash []) (.queue []) (by decide) hheads
  | zset n =>
    cases D with
    | zset m =>
      have hne : n ≠ m := fun he => h (congrArg zset he)
      rcases hC with rfl | ⟨k, hn, hk, rfl | ⟨s, rfl⟩⟩
      · rcases hD with he | ⟨l, he⟩ | ⟨-, y, he⟩
        · exact hne (List.cons.inj he).2
        · exact absurd (congrArg List.head? he) (by decide : some DataType.ZSIZE ≠ some DataType.ZSET)
        · exact absurd (congrArg List.head? he)
            (by decide : some DataType.ZSIZE ≠ some DataType.ZSCORE)
      · rcases hD with he | ⟨l, he⟩ | ⟨-, y, he⟩
        · exact absurd (congrArg List.head? he) (by decide : some DataType.ZSET ≠ some DataType.ZSIZE)
        · exact hne (encodeZsetKey_injective hn hk he).1
        · exact absurd (congrArg List.head? he) (by decide : some DataType.ZSET ≠ some DataType.ZSCORE)
      · rcases hD with he | ⟨l, he⟩ | ⟨hm, y, he⟩
        · exact absurd (congrArg List.head? he)
            (by decide : some DataType.ZSCORE ≠ some DataType.ZSIZE)
        · exact absurd (congrArg List.head? he) (by decide : some DataType.ZSCORE ≠ some DataType.ZSET)
        · exact hne (ScoredSet.named_prefix hm hn he)
    | kv keys => exact hbytes (.zset []) (.kv []) (by decide) hheads
    | hash m => exact hbytes (.zset []) (.hash []) (by decide) hheads
    | queue m => exact hbytes (.zset []) (.queue []) (by decide) hheads
  | queue n =>
    cases D with
    | queue m =>
      have hne : n ≠ m := fun he => h (congrArg queue he)
      rcases hC with rfl | ⟨seq, rfl⟩
      · rcases hD with he | ⟨seq', he⟩
        · exact hne (List.cons.inj he).2
        · exact absurd (congrArg List.head? he) (by decide : some DataType.QSIZE ≠ some DataType.QUEUE)
      · rcases hD with he | ⟨seq', he⟩
        · exact absurd (congrArg List.head? he) (by decide : some DataType.QUEUE ≠ some DataType.QSIZE)
        · exact hne (encodeQitemKey_injective he).1
    | kv keys => exact hbytes (.queue []) (.kv []) (by decide) hheads
    | hash m => exact hbytes (.queue []) (.hash []) (by decide) hheads
    | zset m => exact hbytes (.queue []) (.zset []) (by decide) hheads

end Container

namespace SSDBImpl

structure Agree (K : Bytes → Prop) (w w' : SSDBImpl) : Prop where
  table : ∀ key, K key → w'.ldb.table.get key = w.ldb.table.get key
  faults : w'.faults = w.faults

def Sight {α : Type} (K : Bytes → Prop) (x : M α) : Prop :=
  ∀ w w', Agree K w w' → (x w').1 = (x w).1 ∧ Agree K (x w).2 (x w').2

namespace Sight
variable {α β : Type} {K : Bytes → Prop}

theorem pure (a : α) : Sight K (pure a : M α) := fun _ _ h => ⟨rfl, h⟩

theorem bind {x : M α} {f : α → M β} (hx : Sight K x) (hf : ∀ a, Sight K (f a)) :
    Sight K (x >>= f) := by
  intro w w' h
  obtain ⟨hreply, hnext⟩ := hx w w' h
  simp only [M.bind_apply, hreply]
  exact hf _ _ _ hnext

theorem map {f : α → β} {x : M α} (hx : Sight K x) : Sight K (f <$> x) := by
  intro w w' h
  obtain ⟨hreply, hnext⟩ := hx w w' h
  exact ⟨congrArg f hreply, hnext⟩

theorem ite {c : Prop} [Decidable c] {x y : M α} (hx : Sight K x) (hy : Sight K y) :
    Sight K (if c then x else y) := by
  split_ifs
  · exact hx
  · exact hy

theorem get {key : Bytes} (hkey : K key) : Sight K (LevelDB.Get key) := by
  intro w w' h
  have hfetch : w'.ldb.fetch key = w.ldb.fetch key := by
    rw [LevelDB.fetch, LevelDB.fetch, h.table key hkey]
  simp only [LevelDB.Get, hfetch, h.faults]
  exact ⟨trivial, h.table, rfl⟩

end Sight

open Keys

variable {K : Bytes → Prop}

theorem sight_getRecord {dbkey : Bytes} (h : K dbkey) : Sight K (getRecord dbkey) := by
  refine .bind (.get h) fun r => ?_
  cases r <;> exact .pure _

theorem sight_getCount {sizeKey : Bytes} (h : K sizeKey) : Sight K (getCount sizeKey) := by
  refine .bind (.get h) fun r => ?_
  cases r with
  | found val => exact .ite (.pure _) (.pure _)
  | notFound => exact .pure _
  | failed => exact .pure _

theorem sight_qsize {n : Bytes} (h : K (encodeQsizeKey n)) : Sight K (qsize n) := by
  refine .bind (.get h) fun r => ?_
  cases r with
  | found val => exact .ite (.pure _) (.pure _)
  | notFound => exact .pure _
  | failed => exact .pure _

theorem sight_qpeek (endSeq : UInt64) {n : Bytes} (h : ∀ seq, K (encodeQitemKey n seq)) :
    Sight K (qpeek endSeq n) := by
  have hget (seq : UInt64) : Sight K (qgetUint64 n seq) :=
    .bind (sight_getRecord (h seq)) fun _ => .ite (.ite (.pure _) (.pure _)) (.pure _)
  exact .bind (hget _) fun _ => .ite (.pure _) (.ite (.pure _) (sight_getRecord (h _)))

theorem sight_startScore {n k : Bytes} (h : K (encodeZsetKey n k)) (s : Bytes) :
    Sight K (startScore n k s) := .ite (.bind (sight_getRecord h) fun _ => .pure _) (.pure _)

end SSDBImpl

namespace Call
open Keys SSDBImpl

def lookup : Call → Option Container
  | get key => some (.kv [key])
  | hget n _ | hsize n | hscan n _ _ _ => some (.hash n)
  | zget n _ | zsize n | zscan n _ _ _ _ => some (.zset n)
  | qsize n | qfront n | qback n => some (.queue n)
  | _ => none

def blurred : Call → Prop
  | zscan n _ _ _ _ => SSDB_KEY_LEN_MAX < n.length
  | _ => False

instance (c : Call) : Decidable c.blurred := by
  apply Call.casesOn (motive := fun c => Decidable c.blurred) c <;> intros <;> dsimp only [blurred] <;>
    infer_instance

theorem hscan_agree {n : Bytes} {w w' : SSDBImpl} (h : Agree (Container.hash n).Sees w w')
    (hw : HashTable.WellFormed w.ldb.table) (hw' : HashTable.WellFormed w'.ldb.table)
    (start stop : Bytes) (limit : UInt64) :
    (SSDBImpl.hscan n start stop limit w').1.rest = (SSDBImpl.hscan n start stop limit w).1.rest := by
  obtain ⟨H, hF⟩ := hw
  obtain ⟨H', hF'⟩ := hw'
  have hsame : H' n = H n := by
    refine OrdMap.ext_get fun k => ?_
    rw [← hF'.field n k, ← hF.field n k]
    exact (HashTable.hash_get n k w'.ldb).symm.trans
      ((h.table _ (.inr ⟨k, rfl⟩)).trans (HashTable.hash_get n k w.ldb))
  rw [HashTable.hscan_fields hF', HashTable.hscan_fields hF, hsame]

theorem zscan_agree {n : Bytes} (hn : n.length ≤ SSDB_KEY_LEN_MAX) {w w' : SSDBImpl}
    (h : Agree (Container.zset n).Sees w w') (k s e : Bytes) (limit : UInt64) :
    (SSDBImpl.zscan n k s e limit w').1.rest = (SSDBImpl.zscan n k s e limit w).1.rest := by
  obtain ⟨hscore, hnext⟩ := sight_startScore (K := (Container.zset n).Sees) (.inr (.inl ⟨k, rfl⟩)) s w w' h
  simp only [SSDBImpl.zscan, M.bind_apply, M.get_apply, M.pure_apply, hscore]
  refine ziterator_region n k _ e limit.toNat (OrdMap.under_ext fun y => ?_)
  exact hnext.table _ (.inr (.inr ⟨hn, y, rfl⟩))

theorem lookup_agree {r : Call} {D : Container} (hr : r.lookup = some D) (hb : ¬r.blurred)
    {w w' : SSDBImpl} (h : Agree D.Sees w w') (hw : HashTable.WellFormed w.ldb.table)
    (hw' : HashTable.WellFormed w'.ldb.table) : (r.run w').1 = (r.run w).1 := by
  have hmap {α : Type} {f : α → Reply} {x : M α} (hx : Sight D.Sees x) :
      ((f <$> x) w').1 = ((f <$> x) w).1 := (Sight.map hx w w' h).1
  cases r with
  | get key =>
    obtain rfl := Option.some.inj hr
    exact hmap (sight_getRecord ⟨key, by simp, rfl⟩)
  | hget n k =>
    obtain rfl := Option.some.inj hr
    exact hmap (sight_getRecord (.inr ⟨k, rfl⟩))
  | hsize n =>
    obtain rfl := Option.some.inj hr
    exact hmap (sight_getCount (.inl rfl))
  | hscan n start stop limit =>
    obtain rfl := Option.some.inj hr
    exact congrArg Reply.ofEntries (hscan_agree h hw hw' start stop limit)
  | zget n k =>
    obtain rfl := Option.some.inj hr
    exact hmap (sight_getRecord (.inr (.inl ⟨k, rfl⟩)))
  | zsize n =>
    obtain rfl := Option.some.inj hr
    exact hmap (sight_getCount (.inl rfl))
  | zscan n k s e limit =>
    obtain rfl := Option.some.inj hr
    exact congrArg Reply.ofEntries (zscan_agree (not_lt.mp hb) h k s e limit)
  | qsize n =>
    obtain rfl := Option.some.inj hr
    exact hmap (sight_qsize (.inl rfl))
  | qfront n | qback n =>
    obtain rfl := Option.some.inj hr
    exact hmap (sight_qpeek _ fun seq => .inr ⟨seq, rfl⟩)
  | _ => exact absurd hr (by simp [lookup])

theorem writes_container {c : Call} {C : Container} (hc : c.container = some C) {r : Rec}
    (h : c.Writes r) : C.Writes r := by
  cases c with
  | hclear | zfix | flushdb => exact absurd hc (by simp [container])
  | _ =>
    obtain ⟨C', hC', hr⟩ := h
    obtain rfl : C' = C := Option.some.inj (hC'.symm.trans hc)
    exact hr

theorem exec_apart {c : Call} {C D : Container} (hc : c.container = some C) (h : C.Apart D)
    (f : Faults) (w : SSDBImpl) {key : Bytes} (hkey : D.Sees key) :
    (c.exec f w).2.ldb.table.get key = w.ldb.table.get key := by
  refine exec_untouched (fun _ => Container.sees_data) (fun r hr => ?_) f w hkey
  have hwrites := writes_container hc hr
  cases r with
  | put key value => exact Container.apart_sees h hwrites.1
  | delete key => exact Container.apart_sees h hwrites
  | log type cmd key => trivial

theorem Reachable.exec {w : SSDBImpl} (h : Reachable w) (c : Call) (f : Faults) :
    Reachable (c.exec f w).2 := by
  obtain ⟨enabled, capacity, cs, rfl⟩ := h
  exact ⟨enabled, capacity, cs ++ [(c, f)], (execAll_append cs [(c, f)] _).symm⟩

def oversized : Call → Prop
  | hset n k _ _ | hdel n k _ | hincr n k _ _ | zset n k _ _ | zdel n k _ | zincr n k _ _ =>
    SSDB_KEY_LEN_MAX < n.length ∨ SSDB_KEY_LEN_MAX < k.length
  | _ => False

section oversized
variable {n k : Bytes} (h : SSDB_KEY_LEN_MAX < n.length ∨ SSDB_KEY_LEN_MAX < k.length)
include h

theorem hsetAsk_oversized (v : Bytes) (t : Byte) :
    (hsetAsk n k v t).Every fun p => p.batched = [] := by
  simp only [hsetAsk, hsetOneAsk]
  split_ifs with h1 h2 h3
  · rfl
  · rfl
  · rfl
  · exact absurd h (not_or.mpr ⟨h2, h3⟩)

theorem hdelAsk_oversized (t : Byte) : (hdelAsk n k t).Every fun p => p.batched = [] := by
  simp only [hdelAsk, hdelOneAsk]
  split_ifs with h2 h3
  · rfl
  · rfl
  · exact absurd h (not_or.mpr ⟨h2, h3⟩)

theorem zsetAsk_oversized (v : Bytes) (t : Byte) :
    (zsetAsk n k v t).Every fun p => p.batched = [] := by
  simp only [zsetAsk, zsetOneAsk]
  split_ifs with h1 h2 h3
  · rfl
  · rfl
  · rfl
  · exact absurd h (not_or.mpr ⟨h2, h3⟩)

theorem zdelAsk_oversized (t : Byte) : (zdelAsk n k t).Every fun p => p.batched = [] := by
  simp only [zdelAsk, zdelOneAsk]
  split_ifs with h2 h3
  · rfl
  · rfl
  · exact absurd h (not_or.mpr ⟨h2, h3⟩)

end oversized

theorem batched_map {α β : Type} {f : α → β} {T : Inquiry Bytes Fetched (Plan α)}
    (hT : T.Every fun p => p.batched = []) : (T.map (Plan.map f)).Every fun p => p.batched = [] := by
  refine Inquiry.every_map (hT.imp fun p hp => ?_)
  cases p with
  | reject r => rfl
  | abort recs r => exact hp
  | commit recs ok fail => exact hp

theorem oversized_batched {c : Call} (h : c.oversized) (db : LevelDB) :
    (c.inquiry db).Every fun p => p.batched = [] := by
  cases c with
  | hset n k v t => exact batched_map (hsetAsk_oversized h v t)
  | hdel n k t => exact batched_map (hdelAsk_oversized h t)
  | zset n k v t => exact batched_map (zsetAsk_oversized h v t)
  | zdel n k t => exact batched_map (zdelAsk_oversized h t)
  | hincr n k amount t =>
    refine batched_map fun r => ?_
    cases r with
    | failed => rfl
    | notFound => exact batched_map (hsetAsk_oversized h _ t)
    | found old => exact Inquiry.every_ite (fun _ => batched_map (hsetAsk_oversized h _ t)) fun _ => rfl
  | zincr n k amount t =>
    refine batched_map fun r => ?_
    cases r with
    | failed => rfl
    | notFound | found => exact batched_map (zsetAsk_oversized h _ t)
  | _ => exact absurd h not_false

theorem run_unbatched {α : Type} {p : Plan α} (hp : p.batched = []) (w : SSDBImpl) :
    (p.run w).2.ldb = w.ldb := by
  cases p with
  | reject r => rfl
  | abort recs r => rfl
  | commit recs ok fail =>
    obtain rfl : recs = [] := hp
    rcases eq_or_ne w.faults.write.head? (some true) with hw | hw
    · rw [Plan.run_commit_failed w [] ok fail hw]
      rfl
    · rw [Plan.run_commit w [] ok fail hw]
      rfl

theorem exec_oversized {c : Call} (h : c.oversized) (f : Faults) (w : SSDBImpl) :
    (c.exec f w).2.ldb = w.ldb := by
  have ht : c.transactional = true := by
    cases c <;> first | rfl | exact absurd h not_false
  have hplay := run_play ht { w with faults := f }
  rw [Inquiry.play_apply] at hplay
  have hempty : (outcome { w with faults := f } (c.inquiry w.ldb)).1.batched = [] :=
    Inquiry.resolve_every (oversized_batched h w.ldb) f.get
  exact (congrArg (fun r => r.2.ldb) hplay).trans (run_unbatched hempty _)

/-- Whatever ran before: a write changes no reply about another container, and names and keys that
are too long neither change nor meet a record. -/
theorem containers_isolated {w : SSDBImpl} (hw : Reachable w) :
    (∀ (c r : Call) (C D : Container) (f g : Faults), c.container = some C → r.lookup = some D →
      C.Apart D → ¬r.blurred → (r.exec g (c.exec f w).2).1 = (r.exec g w).1) ∧
      (∀ (c : Call) (f : Faults), c.oversized → (c.exec f w).2.ldb = w.ldb) ∧
      ∀ n k, SSDB_KEY_LEN_MAX < n.length ∨ SSDB_KEY_LEN_MAX < k.length →
        (SSDBImpl.hget n k w).1 = (0, none) ∧ (SSDBImpl.zget n k w).1 = (0, none) ∧
          (SSDB_KEY_LEN_MAX < n.length →
            ∀ start stop limit, (SSDBImpl.hscan n start stop limit w).1.rest = []) := by
  have hshaped := Container.reachable_shaped hw
  refine ⟨fun c r C D f g hc hr hCD hb => ?_, fun c f h => exec_oversized h f w,
    fun n k hlong => ?_⟩
  · have hagree : Agree D.Sees { w with faults := g } { (c.exec f w).2 with faults := g } :=
      ⟨fun key hkey => exec_apart hc hCD f w hkey, rfl⟩
    have hbefore := reachable_wellFormed hw
    have hafter := reachable_wellFormed (hw.exec c f)
    exact lookup_agree hr hb hagree hbefore hafter
  · have hnot : ¬HashTable.Admitted n k := fun ha =>
      hlong.elim (not_lt.mpr ha.2.2.1) (not_lt.mpr ha.2.2.2)
    have hfaults : w.faults.get = [] := by
      obtain ⟨enabled, capacity, cs, rfl⟩ := hw
      exact congrArg Faults.get (execAll_faults cs rfl)
    have hhash : w.ldb.table.get (encodeHashKey n k) = none :=
      Option.eq_none_iff_forall_ne_some.mpr fun v hv => hnot (Container.shaped_hash hshaped hv)
    have hzset : w.ldb.table.get (encodeZsetKey n k) = none :=
      Option.eq_none_iff_forall_ne_some.mpr fun v hv => hnot (Container.shaped_zset hshaped hv)
    refine ⟨?_, ?_, fun hname start stop limit => ?_⟩
    · rw [SSDBImpl.hget, getRecord_apply _ hfaults, LevelDB.readRecord, hhash]
    · rw [SSDBImpl.zget, getRecord_apply _ hfaults, LevelDB.readRecord, hzset]
    · obtain ⟨H, hF⟩ := reachable_wellFormed hw
      have hnone : (H n).entries = [] := List.eq_nil_iff_forall_not_mem.mpr fun e he => by
        have ha := hF.admitted n e.1 (by simp [(OrdMap.mem_entries_iff _ _ _).mp he])
        exact not_lt.mpr ha.2.2.1 hname
      rw [HashTable.hscan_fields hF, hnone, List.filter_nil, List.take_nil]

theorem containers_isolated_write :
    ((Call.get [107]).exec .none
      ((Call.hset [104] [97] [49] 1).exec .none (SSDBImpl.fresh true 1000)).2).1 =
        ((Call.get [107]).exec .none (SSDBImpl.fresh true 1000)).1 :=
  (containers_isolated ⟨true, 1000, [], rfl⟩).1 (.hset [104] [97] [49] 1) (.get [107])
    (.hash [104]) (.kv [[107]]) .none .none rfl rfl
    (by decide : Container.hash [104] ≠ Container.kv [[107]]) not_false

end Call
