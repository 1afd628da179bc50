import Ssdb.Library.OrdMap

namespace Versions
variable {α β κ γ : Type} [LinearOrder κ] (key : α → κ) (reading : α × β → Option (Option γ))

def newest (k : κ) (es : List (α × β)) : Option (Option γ) :=
  es.findSome? fun e => if key e.1 = k then reading e else none

variable {key reading} {k : κ} {e : α × β} {es fs : List (α × β)}

@[simp] theorem newest_nil : newest key reading k [] = none := rfl

theorem newest_append :
    newest key reading k (es ++ fs) = (newest key reading k es).or (newest key reading k fs) :=
  List.findSome?_append

theorem newest_cons : newest key reading k (e :: es) =
    (if key e.1 = k then reading e else none).or (newest key reading k es) := by
  rw [newest, List.findSome?_cons]
  cases if key e.1 = k then reading e else none <;> rfl

theorem newest_cons_self : newest key reading (key e.1) (e :: es) =
    (reading e).or (newest key reading (key e.1) es) := by
  rw [newest_cons, if_pos rfl]

theorem newest_cons_ne (h : key e.1 ≠ k) :
    newest key reading k (e :: es) = newest key reading k es := by
  rw [newest_cons, if_neg h, Option.none_or]

theorem newest_cons_none (h : reading e = none) :
    newest key reading k (e :: es) = newest key reading k es := by
  rw [newest_cons, h, ite_self, Option.none_or]

theorem newest_eq_none_iff :
    newest key reading k es = none ↔ ∀ e ∈ es, key e.1 = k → reading e = none := by
  rw [newest, List.findSome?_eq_none_iff]
  refine forall₂_congr fun e _ => ?_
  split_ifs with hk
  · exact ⟨fun h _ => h, fun h => h hk⟩
  · exact ⟨fun _ h => absurd h hk, fun _ => rfl⟩

theorem newest_mem {r : Option γ} (h : newest key reading k es = some r) :
    ∃ e ∈ es, key e.1 = k ∧ reading e = some r := by
  obtain ⟨e, he, hr⟩ := List.exists_of_findSome?_eq_some h
  split_ifs at hr with hk
  exact ⟨e, he, hk, hr⟩

theorem newest_congr {reading' : α × β → Option (Option γ)} (h : ∀ e ∈ es, reading e = reading' e) :
    newest key reading k es = newest key reading' k es := by
  induction es with
  | nil => rfl
  | cons e es ih =>
    rw [newest_cons, newest_cons, h e (by simp), ih fun e' he' => h e' (by simp [he'])]

variable (key reading)

def listed (es : List (α × β)) : List (κ × γ) :=
  (es.map fun e => key e.1).dedup.filterMap fun k =>
    (newest key reading k es).join.map fun v => (k, v)

variable {key reading}

theorem mem_listed {p : κ × γ} :
    p ∈ listed key reading es ↔ newest key reading p.1 es = some (some p.2) := by
  obtain ⟨k, v⟩ := p
  simp only [listed, List.mem_filterMap, List.mem_dedup, List.mem_map, Option.map_eq_some_iff,
    Option.join_eq_some_iff]
  constructor
  · rintro ⟨k', -, v', h, heq⟩
    obtain ⟨rfl, rfl⟩ := Prod.mk.inj heq
    exact h
  · intro h
    obtain ⟨e, he, hk, -⟩ := newest_mem h
    exact ⟨k, ⟨e, he, hk⟩, v, h, rfl⟩

theorem listed_sorted [LinearOrder α] (hkey : Monotone key) (hs : es.Pairwise fun p q => p.1 < q.1) :
    (listed key reading es).Pairwise fun p q => p.1 < q.1 := by
  have hle : (es.map fun e => key e.1).Pairwise (· ≤ ·) :=
    List.pairwise_map.mpr (hs.imp fun h => hkey h.le)
  have hlt : (es.map fun e => key e.1).dedup.Pairwise (· < ·) :=
    ((hle.sublist (List.dedup_sublist _)).and (List.nodup_dedup _)).imp fun h => lt_of_le_of_ne h.1 h.2
  refine List.pairwise_filterMap.mpr (hlt.imp fun hab p hp q hq => ?_)
  obtain ⟨v, -, rfl⟩ := Option.map_eq_some_iff.mp hp
  obtain ⟨w, -, rfl⟩ := Option.map_eq_some_iff.mp hq
  exact hab

variable [LinearOrder α] (reading)

def visible (hkey : Monotone key) (m : OrdMap α β) : OrdMap κ γ :=
  ⟨listed key reading m.entries, listed_sorted hkey m.sorted⟩

variable {reading} {hkey : Monotone key} {m : OrdMap α β}

theorem get_visible : (visible reading hkey m).get k = (newest key reading k m.entries).join := by
  refine Option.ext fun v => ?_
  rw [← OrdMap.mem_entries_iff, visible, mem_listed, Option.join_eq_some_iff]

theorem newest_eq_some_iff {r : Option γ} : newest key reading k m.entries = some r ↔
    ∃ e ∈ m.entries, key e.1 = k ∧ reading e = some r ∧
      ∀ e' ∈ m.entries, key e'.1 = k → reading e' ≠ none → e.1 ≤ e'.1 := by
  obtain ⟨entries, hs⟩ := m
  dsimp only
  induction entries with
  | nil => simp
  | cons x l ih =>
    obtain ⟨hx, hl⟩ := List.pairwise_cons.mp hs
    have hpass (hread : key x.1 = k → reading x = none) :
        (∃ e ∈ x :: l, key e.1 = k ∧ reading e = some r ∧
          ∀ e' ∈ x :: l, key e'.1 = k → reading e' ≠ none → e.1 ≤ e'.1) ↔
        ∃ e ∈ l, key e.1 = k ∧ reading e = some r ∧
          ∀ e' ∈ l, key e'.1 = k → reading e' ≠ none → e.1 ≤ e'.1 := by
      constructor
      · rintro ⟨e, he, hk, hr, hleast⟩
        rcases List.mem_cons.mp he with rfl | he
        · exact absurd ((hread hk).symm.trans hr) (by simp)
        · exact ⟨e, he, hk, hr, fun e' he' => hleast e' (List.mem_cons_of_mem _ he')⟩
      · rintro ⟨e, he, hk, hr, hleast⟩
        refine ⟨e, List.mem_cons_of_mem _ he, hk, hr, List.forall_mem_cons.mpr ⟨?_, hleast⟩⟩
        exact fun hkx hrx => absurd (hread hkx) hrx
    by_cases hk : key x.1 = k
    · subst hk
      cases hr : reading x with
      | none => rw [newest_cons_none hr, ih hl, hpass fun _ => hr]
      | some r' =>
        rw [newest_cons_self, hr, Option.some_or]
        constructor
        · intro h
          obtain rfl := Option.some.inj h
          refine ⟨x, by simp, rfl, hr, List.forall_mem_cons.mpr ⟨fun _ _ => le_rfl, ?_⟩⟩
          exact fun e' he' _ _ => (hx e' he').le
        · rintro ⟨e, he, -, hre, hleast⟩
          rcases List.mem_cons.mp he with rfl | he
          · exact hr.symm.trans hre
          · exact absurd (hleast x (by simp) rfl (by simp [hr])) (not_le.mpr (hx e he))
    · rw [newest_cons_ne hk, ih hl, hpass fun h => absurd h hk]

theorem mem_insert {a : α} {v : β} : e ∈ (m.insert a v).entries ↔ e = (a, v) ∨ e ∈ m.entries ∧ e.1 ≠ a := by
  obtain ⟨b, w⟩ := e
  rw [OrdMap.mem_entries_iff, OrdMap.mem_entries_iff, OrdMap.get_insert, Prod.mk.injEq]
  split_ifs with h
  · simp [h, eq_comm]
  · simp [h]

theorem newest_insert_other {a : α} {v : β} (h : key a ≠ k) :
    newest key reading k (m.insert a v).entries = newest key reading k m.entries := by
  have hmem (e : α × β) (hk : key e.1 = k) : e ∈ (m.insert a v).entries ↔ e ∈ m.entries := by
    have hne : e.1 ≠ a := fun he => h (he ▸ hk)
    rw [mem_insert]
    exact ⟨fun he => (he.resolve_left fun heq => hne (congrArg Prod.fst heq)).1, fun he => .inr ⟨he, hne⟩⟩
  refine Option.ext fun r => ?_
  rw [newest_eq_some_iff, newest_eq_some_iff]
  constructor
  · rintro ⟨e, he, hk, hr, hleast⟩
    exact ⟨e, (hmem e hk).mp he, hk, hr, fun e' he' hk' => hleast e' ((hmem e' hk').mpr he') hk'⟩
  · rintro ⟨e, he, hk, hr, hleast⟩
    exact ⟨e, (hmem e hk).mpr he, hk, hr, fun e' he' hk' => hleast e' ((hmem e' hk').mp he') hk'⟩

theorem newest_insert_first {a : α} {v : β} {r : Option γ} (hr : reading (a, v) = some r)
    (h : ∀ e ∈ m.entries, key e.1 = key a → reading e ≠ none → a ≤ e.1) :
    newest key reading (key a) (m.insert a v).entries = some r := by
  refine newest_eq_some_iff.mpr ⟨(a, v), mem_insert.mpr (.inl rfl), rfl, hr, fun e he hk hread => ?_⟩
  rcases mem_insert.mp he with rfl | ⟨he, -⟩
  · exact le_rfl
  · exact h e he hk hread

theorem newest_insert_unread {a : α} {v : β} (hr : reading (a, v) = none) (ha : m.get a = none) :
    newest key reading k (m.insert a v).entries = newest key reading k m.entries := by
  have hmem (e : α × β) (hread : reading e ≠ none) : e ∈ (m.insert a v).entries ↔ e ∈ m.entries := by
    rw [mem_insert]
    constructor
    · rintro (rfl | ⟨he, -⟩)
      · exact absurd hr hread
      · exact he
    · refine fun he => .inr ⟨he, fun heq => ?_⟩
      have hget := (OrdMap.mem_entries_iff m e.1 e.2).mp he
      rw [heq, ha] at hget
      exact absurd hget (by simp)
  refine Option.ext fun r => ?_
  rw [newest_eq_some_iff, newest_eq_some_iff]
  constructor
  · rintro ⟨e, he, hk, hre, hleast⟩
    exact ⟨e, (hmem e (by simp [hre])).mp he, hk, hre,
      fun e' he' hk' hr' => hleast e' ((hmem e' hr').mpr he') hk' hr'⟩
  · rintro ⟨e, he, hk, hre, hleast⟩
    exact ⟨e, (hmem e (by simp [hre])).mpr he, hk, hre,
      fun e' he' hk' hr' => hleast e' ((hmem e' hr').mp he') hk' hr'⟩

end Versions
