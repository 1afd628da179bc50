import Mathlib.Data.List.Sort
import Mathlib.Data.Finset.Card
import Mathlib.Tactic

structure OrdMap (α β : Type) [LinearOrder α] where
  entries : List (α × β)
  sorted : entries.Pairwise (fun p q => p.1 < q.1)

namespace OrdMap
variable {α β : Type} [LinearOrder α]

def find (k : α) : List (α × β) → Option β
  | [] => none
  | e :: es => if k = e.1 then some e.2 else find k es

def put (k : α) (v : β) : List (α × β) → List (α × β)
  | [] => [(k, v)]
  | e :: es =>
    if k < e.1 then (k, v) :: e :: es
    else if k = e.1 then (k, v) :: es
    else e :: put k v es

theorem mem_put {k : α} {v : β} {es : List (α × β)} {p : α × β} (h : p ∈ put k v es) :
    p = (k, v) ∨ p ∈ es := by
  induction es with
  | nil => exact .inl (by simpa [put] using h)
  | cons e es ih =>
    simp only [put] at h
    split_ifs at h with hlt heq
    · rcases List.mem_cons.mp h with rfl | h
      · exact .inl rfl
      · exact .inr h
    · rcases List.mem_cons.mp h with rfl | h
      · exact .inl rfl
      · exact .inr (List.mem_cons_of_mem _ h)
    · rcases List.mem_cons.mp h with rfl | h
      · exact .inr (by simp)
      · exact (ih h).imp id (List.mem_cons_of_mem _)

theorem put_sorted {k : α} {v : β} {es : List (α × β)}
    (hs : es.Pairwise (fun p q => p.1 < q.1)) : (put k v es).Pairwise (fun p q => p.1 < q.1) := by
  induction es with
  | nil => simp [put]
  | cons e es ih =>
    obtain ⟨he, hes⟩ := List.pairwise_cons.mp hs
    simp only [put]
    split_ifs with hlt heq
    · refine List.pairwise_cons.mpr ⟨fun p hp => ?_, hs⟩
      rcases List.mem_cons.mp hp with rfl | hp
      · exact hlt
      · exact hlt.trans (he p hp)
    · exact List.pairwise_cons.mpr ⟨fun p hp => heq ▸ he p hp, hes⟩
    · refine List.pairwise_cons.mpr ⟨fun p hp => ?_, ih hes⟩
      rcases mem_put hp with rfl | hp
      · exact lt_of_le_of_ne (not_lt.mp hlt) (Ne.symm heq)
      · exact he p hp

def empty : OrdMap α β := ⟨[], .nil⟩

def get (m : OrdMap α β) (k : α) : Option β := find k m.entries

def insert (m : OrdMap α β) (k : α) (v : β) : OrdMap α β := ⟨put k v m.entries, put_sorted m.sorted⟩

def erase (m : OrdMap α β) (k : α) : OrdMap α β :=
  ⟨m.entries.filter (fun e => e.1 ≠ k), m.sorted.filter _⟩

def size (m : OrdMap α β) : ℕ := m.entries.length

def keys (m : OrdMap α β) : List α := m.entries.map Prod.fst

theorem find_eq_none {k : α} {es : List (α × β)} (h : ∀ e ∈ es, k ≠ e.1) : find k es = none := by
  induction es with
  | nil => rfl
  | cons e es ih =>
    rw [find, if_neg (h e (by simp))]
    exact ih (fun e he => h e (by simp [he]))

theorem find_put (k k' : α) (v : β) (es : List (α × β)) :
    find k' (put k v es) = if k' = k then some v else find k' es := by
  induction es with
  | nil => simp [put, find]
  | cons e es ih =>
    simp only [put]
    split_ifs with hlt heq hk hk hk <;> simp_all [find]

theorem find_filter (k k' : α) (es : List (α × β)) :
    find k' (es.filter (fun e => e.1 ≠ k)) = if k' = k then none else find k' es := by
  induction es with
  | nil => simp [find]
  | cons e es ih =>
    by_cases he : e.1 = k
    · rw [List.filter_cons_of_neg (by simpa using he), ih]
      split_ifs with hk
      · rfl
      · rw [find, if_neg (fun h => hk (h.trans he))]
    · rw [List.filter_cons_of_pos (by simpa using he)]
      simp only [find, ih]
      split_ifs with h1 h2 <;> simp_all

@[simp] theorem get_empty (k : α) : (empty : OrdMap α β).get k = none := rfl

theorem get_insert (m : OrdMap α β) (k k' : α) (v : β) :
    (m.insert k v).get k' = if k' = k then some v else m.get k' := find_put k k' v m.entries

theorem get_erase (m : OrdMap α β) (k k' : α) :
    (m.erase k).get k' = if k' = k then none else m.get k' := find_filter k k' m.entries

@[simp] theorem get_insert_self (m : OrdMap α β) (k : α) (v : β) :
    (m.insert k v).get k = some v := by simp [get_insert]

@[simp] theorem get_erase_self (m : OrdMap α β) (k : α) : (m.erase k).get k = none := by
  simp [get_erase]

theorem get_insert_ne (m : OrdMap α β) {k k' : α} (v : β) (h : k' ≠ k) :
    (m.insert k v).get k' = m.get k' := by simp [get_insert, h]

theorem get_erase_ne (m : OrdMap α β) {k k' : α} (h : k' ≠ k) :
    (m.erase k).get k' = m.get k' := by simp [get_erase, h]

theorem find_eq_some_iff {es : List (α × β)} (hs : es.Pairwise (fun p q => p.1 < q.1))
    (k : α) (v : β) : find k es = some v ↔ (k, v) ∈ es := by
  induction es with
  | nil => simp [find]
  | cons e es ih =>
    obtain ⟨he, hes⟩ := List.pairwise_cons.mp hs
    obtain ⟨a, b⟩ := e
    rw [find]
    split_ifs with hk
    · have hnot : (k, v) ∉ es := fun hm => lt_irrefl k (by simpa [hk] using he _ hm)
      simp [hk, eq_comm] at hnot ⊢
      exact fun hm => absurd hm hnot
    · simp [ih hes, hk]

theorem mem_entries_iff (m : OrdMap α β) (k : α) (v : β) :
    (k, v) ∈ m.entries ↔ m.get k = some v := (find_eq_some_iff m.sorted k v).symm

theorem mem_keys_iff (m : OrdMap α β) (k : α) : k ∈ m.keys ↔ m.get k ≠ none := by
  simp only [keys, List.mem_map, Prod.exists, mem_entries_iff, Option.ne_none_iff_exists']
  constructor
  · rintro ⟨a, b, h, rfl⟩
    exact ⟨b, h⟩
  · rintro ⟨b, h⟩
    exact ⟨k, b, h, rfl⟩

theorem keys_sorted (m : OrdMap α β) : m.keys.Pairwise (· < ·) :=
  List.pairwise_map.mpr m.sorted

theorem keys_nodup (m : OrdMap α β) : m.keys.Nodup :=
  m.keys_sorted.imp (fun h => ne_of_lt h)

theorem sorted_ext {l l' : List (α × β)} (hl : l.Pairwise (fun p q => p.1 < q.1))
    (hl' : l'.Pairwise (fun p q => p.1 < q.1)) (h : ∀ e, e ∈ l ↔ e ∈ l') : l = l' := by
  have : Std.Irrefl (fun p q : α × β => p.1 < q.1) := ⟨fun p => lt_irrefl p.1⟩
  have : Std.Antisymm (fun p q : α × β => p.1 < q.1) := ⟨fun p q h h' => (lt_asymm h h').elim⟩
  exact List.Pairwise.eq_of_mem_iff hl hl' h

theorem ext_get {m n : OrdMap α β} (h : ∀ k, m.get k = n.get k) : m = n := by
  have he : m.entries = n.entries := sorted_ext m.sorted n.sorted fun e => by
    rw [mem_entries_iff, mem_entries_iff, h]
  cases m
  cases n
  simp_all

theorem insert_same {m : OrdMap α β} {k : α} {v : β} (h : m.get k = some v) : m.insert k v = m := by
  refine ext_get fun k' => ?_
  rw [get_insert]
  split_ifs with hk
  · rw [hk, h]
  · rfl

theorem length_put (k : α) (v : β) (es : List (α × β)) (hs : es.Pairwise (fun p q => p.1 < q.1)) :
    (put k v es).length = if find k es = none then es.length + 1 else es.length := by
  induction es with
  | nil => simp [put, find]
  | cons e es ih =>
    obtain ⟨he, hes⟩ := List.pairwise_cons.mp hs
    simp only [put, find]
    split_ifs with hlt heq hnone hnone hnone <;> simp_all
    exact absurd (find_eq_none fun e' h' => ne_of_lt (hlt.trans (he _ _ h'))) hnone

theorem size_insert (m : OrdMap α β) (k : α) (v : β) :
    (m.insert k v).size = if m.get k = none then m.size + 1 else m.size :=
  length_put k v m.entries m.sorted

theorem length_filter_ne (k : α) (es : List (α × β)) (hs : es.Pairwise (fun p q => p.1 < q.1)) :
    (es.filter (fun e => e.1 ≠ k)).length =
      if find k es = none then es.length else es.length - 1 := by
  induction es with
  | nil => simp [find]
  | cons e es ih =>
    obtain ⟨he, hes⟩ := List.pairwise_cons.mp hs
    by_cases hk : e.1 = k
    · have hrest : find k es = none := find_eq_none fun e' h' => hk ▸ ne_of_lt (he e' h')
      rw [List.filter_cons_of_neg (by simpa using hk), ih hes]
      simp [find, hk, hrest]
    · rw [List.filter_cons_of_pos (by simpa using hk), List.length_cons, ih hes]
      rw [find, if_neg (Ne.symm hk)]
      split_ifs with hnone
      · rfl
      · have hpos : 0 < es.length := List.length_pos_iff.mpr fun h => hnone (by simp [h, find])
        simp only [List.length_cons]
        omega

theorem size_erase (m : OrdMap α β) (k : α) :
    (m.erase k).size = if m.get k = none then m.size else m.size - 1 :=
  length_filter_ne k m.entries m.sorted

theorem erase_first {m : OrdMap α β} {k : α} {v : β} {es : List (α × β)}
    (h : m.entries = (k, v) :: es) : (m.erase k).entries = es := by
  have hs := m.sorted
  rw [h] at hs
  have hrest := (List.pairwise_cons.mp hs).1
  change m.entries.filter (fun e => e.1 ≠ k) = es
  rw [h, List.filter_cons_of_neg (by simp)]
  exact List.filter_eq_self.mpr fun e he => by simpa using (hrest e he).ne'

theorem size_eq_card [DecidableEq α] (m : OrdMap α β) : m.size = m.keys.toFinset.card := by
  rw [List.toFinset_card_of_nodup m.keys_nodup, keys, List.length_map, size]

def upperBound (m : OrdMap α β) (k : α) : Option α := m.keys.find? (fun l => k < l)

theorem upperBound_none {m : OrdMap α β} {k : α} (h : m.upperBound k = none) :
    ∀ l ∈ m.keys, ¬ k < l := by
  intro l hl
  simpa using List.find?_eq_none.mp h l hl

theorem upperBound_some {m : OrdMap α β} {k l : α} (h : m.upperBound k = some l) :
    l ∈ m.keys ∧ k < l ∧ ∀ l' ∈ m.keys, k < l' → l ≤ l' := by
  obtain ⟨hk, before, after, heq, hbefore⟩ := List.find?_eq_some_iff_append.mp h
  refine ⟨by simp [heq], by simpa using hk, fun l' hl' hless => ?_⟩
  have hs := m.keys_sorted
  rw [heq] at hs hl'
  rcases List.mem_append.mp hl' with hl' | hl'
  · exact absurd hless (by simpa using hbefore l' hl')
  · rcases List.mem_cons.mp hl' with rfl | hl'
    · exact le_rfl
    · exact ((List.pairwise_cons.mp (List.pairwise_append.mp hs).2.1).1 l' hl').le

def ofList (es : List (α × β)) : OrdMap α β := es.foldl (fun m e => m.insert e.1 e.2) empty

theorem get_foldl_insert {es : List (α × β)} (hes : (es.map Prod.fst).Nodup) (m : OrdMap α β)
    (k : α) (v : β) : (es.foldl (fun m e => m.insert e.1 e.2) m).get k = some v ↔
      (k, v) ∈ es ∨ k ∉ es.map Prod.fst ∧ m.get k = some v := by
  induction es generalizing m with
  | nil => simp
  | cons e es ih =>
    obtain ⟨hnot, hes⟩ := List.nodup_cons.mp hes
    rw [List.foldl_cons, ih hes, get_insert, List.mem_cons, List.map_cons, List.mem_cons]
    rcases eq_or_ne k e.1 with rfl | hk
    · have hpair : (e.1, v) = e ↔ e.2 = v :=
        ⟨fun h => (congrArg Prod.snd h).symm, fun h => Prod.ext rfl h.symm⟩
      have hmem : (e.1, v) ∉ es := fun h => hnot (List.mem_map.mpr ⟨_, h, rfl⟩)
      simp [hnot, hpair, hmem]
    · have hpair : (k, v) ≠ e := fun h => hk (congrArg Prod.fst h)
      simp [hk, hpair]

theorem get_ofList {es : List (α × β)} (hes : (es.map Prod.fst).Nodup) (k : α) (v : β) :
    (ofList es).get k = some v ↔ (k, v) ∈ es := by
  rw [ofList, get_foldl_insert hes]
  simp

theorem size_ofList {es : List (α × β)} (hes : (es.map Prod.fst).Nodup) :
    (ofList es).size = es.length := by
  have hentries : (ofList es).entries.Nodup :=
    List.Nodup.of_map Prod.fst (ofList es).keys_nodup
  have hperm : (ofList es).entries.Perm es :=
    (List.perm_ext_iff_of_nodup hentries hes.of_map).mpr fun e => by
      rw [← get_ofList hes e.1 e.2, mem_entries_iff]
  exact hperm.length_eq

end OrdMap
