import Ssdb.Library.Walker

namespace OrdMap
variable {α β γ : Type} [LinearOrder α] {index : OrdMap α γ} {part : γ → OrdMap α β} {m : OrdMap α β}
  {p : α → Bool} {i : α × γ} {before after : List (α × γ)}

structure Shelved (index : OrdMap α γ) (part : γ → OrdMap α β) (m : OrdMap α β) : Prop where
  entries : m.entries = index.entries.flatMap fun i => (part i.2).entries
  upTo : ∀ i ∈ index.entries, ∀ e ∈ (part i.2).entries, e.1 ≤ i.1
  above : ∀ i ∈ index.entries, ∀ j ∈ index.entries, i.1 < j.1 → ∀ e ∈ (part j.2).entries, i.1 < e.1

namespace Shelved

theorem mem (h : Shelved index part m) {e : α × β} :
    e ∈ m.entries ↔ ∃ i ∈ index.entries, e ∈ (part i.2).entries := by
  rw [h.entries, List.mem_flatMap]

theorem least_eq (h : Shelved index part m) (p : α → Bool) :
    m.least p = index.entries.findSome? fun i => (part i.2).least p := by
  rw [least, h.entries, List.find?_flatMap]
  rfl

theorem greatest_eq (h : Shelved index part m) (p : α → Bool) :
    m.greatest p = index.entries.reverse.findSome? fun i => (part i.2).greatest p := by
  rw [greatest, h.entries, List.reverse_flatMap, List.find?_flatMap]
  rfl

omit [LinearOrder α] in
theorem findSome_congr {f g : α × γ → Option (α × β)} {l : List (α × γ)} (h : ∀ j ∈ l, f j = g j) :
    l.findSome? f = l.findSome? g := by
  induction l with
  | nil => rfl
  | cons j l ih =>
    rw [List.findSome?_cons, List.findSome?_cons, h j (by simp), ih fun j' hj' => h j' (by simp [hj'])]

theorem least_from (h : Shelved index part m) (hsplit : before.reverse ++ after = index.entries)
    (hbefore : ∀ j ∈ before, ∀ e ∈ (part j.2).entries, p e.1 = false) :
    m.least p = after.findSome? fun j => (part j.2).least p := by
  rw [h.least_eq, ← hsplit, List.findSome?_append, List.findSome?_eq_none_iff.mpr, Option.none_or]
  exact fun j hj => least_eq_none_iff.mpr (hbefore j (List.mem_reverse.mp hj))

theorem greatest_from (h : Shelved index part m) (hsplit : before.reverse ++ after = index.entries)
    (hafter : ∀ j ∈ after, ∀ e ∈ (part j.2).entries, p e.1 = false) :
    m.greatest p = before.findSome? fun j => (part j.2).greatest p := by
  rw [h.greatest_eq, ← hsplit, List.reverse_append, List.reverse_reverse, List.findSome?_append,
    List.findSome?_eq_none_iff.mpr, Option.none_or]
  exact fun j hj => greatest_eq_none_iff.mpr (hafter j (List.mem_reverse.mp hj))

theorem least_at (h : Shelved index part m) (hsplit : before.reverse ++ i :: after = index.entries)
    (hbefore : ∀ j ∈ before, ∀ e ∈ (part j.2).entries, p e.1 = false)
    (hafter : ∀ j ∈ after, ∀ e ∈ (part j.2).entries, p e.1 = true) :
    m.least p = ((part i.2).least p).or (after.findSome? fun j => (part j.2).least fun _ => true) := by
  rw [h.least_from hsplit hbefore, List.findSome?_cons]
  have hrest : (after.findSome? fun j => (part j.2).least p) =
      after.findSome? fun j => (part j.2).least fun _ => true :=
    findSome_congr fun j hj => least_congr (hafter j hj)
  cases (part i.2).least p with
  | none => exact hrest
  | some e => rfl

theorem greatest_at (h : Shelved index part m) (hsplit : before.reverse ++ i :: after = index.entries)
    (hbefore : ∀ j ∈ before, ∀ e ∈ (part j.2).entries, p e.1 = true)
    (hafter : ∀ j ∈ after, ∀ e ∈ (part j.2).entries, p e.1 = false) :
    m.greatest p = ((part i.2).greatest p).or (before.findSome? fun j => (part j.2).greatest fun _ => true) := by
  have hsplit' : (i :: before).reverse ++ after = index.entries := by simpa using hsplit
  rw [h.greatest_from hsplit' hafter, List.findSome?_cons]
  have hrest : (before.findSome? fun j => (part j.2).greatest p) =
      before.findSome? fun j => (part j.2).greatest fun _ => true :=
    findSome_congr fun j hj => greatest_congr (hbefore j hj)
  cases (part i.2).greatest p with
  | none => exact hrest
  | some e => rfl

theorem sides (h : Shelved index part m) (hsplit : before.reverse ++ i :: after = index.entries) :
    (∀ j ∈ before, ∀ e ∈ (part j.2).entries, ∀ e' ∈ (part i.2).entries, e.1 < e'.1) ∧
      ∀ j ∈ after, ∀ e ∈ (part j.2).entries, i.1 < e.1 := by
  obtain ⟨hbefore, hafter⟩ := Cursor.Splits.ordered hsplit
  have hi : i ∈ index.entries := by simp [← hsplit]
  constructor
  · intro j hj e he e' he'
    have hj' : j ∈ index.entries := by simp [← hsplit, hj]
    exact (h.upTo j hj' e he).trans_lt (h.above j hj' i hi (hbefore j hj) e' he')
  · intro j hj
    exact h.above i hi j (by simp [← hsplit, hj]) (hafter j hj)

end Shelved

end OrdMap
