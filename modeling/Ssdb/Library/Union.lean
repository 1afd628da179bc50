import Ssdb.Library.OrdMap

namespace OrdMap
variable {α β : Type} [LinearOrder α] {a b : OrdMap α β}

def union (a b : OrdMap α β) : OrdMap α β := b.entries.foldl (fun m e => m.insert e.1 e.2) a

theorem get_union (k : α) : (union a b).get k = (b.get k).or (a.get k) := by
  refine Option.ext fun v => ?_
  have hnodup : (b.entries.map Prod.fst).Nodup := b.keys_nodup
  rw [union, get_foldl_insert hnodup, mem_entries_iff, Option.or_eq_some_iff]
  have hkey : k ∉ b.entries.map Prod.fst ↔ b.get k = none := by
    change k ∉ b.keys ↔ _
    rw [mem_keys_iff, not_not]
  rw [hkey]

@[simp] theorem union_empty : union a empty = a := rfl

theorem union_insert (k : α) (v : β) : union a (b.insert k v) = (union a b).insert k v := by
  refine ext_get fun k' => ?_
  rw [get_union, get_insert, get_insert, get_union]
  split_ifs <;> rfl

theorem entries_insert_last {k : α} {v : β} (h : ∀ e ∈ a.entries, e.1 < k) :
    (a.insert k v).entries = a.entries ++ [(k, v)] := by
  obtain ⟨es, hs⟩ := a
  change put k v es = es ++ [(k, v)]
  induction es with
  | nil => rfl
  | cons e es ih =>
    obtain ⟨he, hes⟩ := List.forall_mem_cons.mp h
    rw [put, if_neg (not_lt.mpr he.le), if_neg he.ne', ih (List.pairwise_cons.mp hs).2 hes]
    rfl

theorem mem_ofList {es : List (α × β)} (hes : (es.map Prod.fst).Nodup) {e : α × β} :
    e ∈ (ofList es).entries ↔ e ∈ es := by
  rw [mem_entries_iff, get_ofList hes]

theorem entries_ofList {es : List (α × β)} (hes : es.Pairwise fun p q => p.1 < q.1) :
    (ofList es).entries = es := by
  have hnodup : (es.map Prod.fst).Nodup := List.pairwise_map.mpr (hes.imp fun h => h.ne)
  exact sorted_ext (ofList es).sorted hes fun e => mem_ofList hnodup

end OrdMap
