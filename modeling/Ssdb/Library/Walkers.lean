import Ssdb.Library.Walker

namespace Walker
variable {σ τ α β : Type} [LinearOrder α] {it : Walker σ α β} {it' : Walker τ α β} {P : α → Prop}
  {I : σ → Prop} {J : τ → Prop} {m : OrdMap α β}

def either (it : Walker σ α β) (it' : Walker τ α β) : Walker (σ ⊕ τ) α β where
  current := Sum.elim it.current it'.current
  seek k := Sum.map (it.seek k) (it'.seek k)
  seekToFirst := Sum.map it.seekToFirst it'.seekToFirst
  seekToLast := Sum.map it.seekToLast it'.seekToLast
  next := Sum.map it.next it'.next
  prev := Sum.map it.prev it'.prev

omit [LinearOrder α] in
theorem either_move (mv : Move α) (s : σ ⊕ τ) :
    (either it it').move mv s = Sum.map (it.move mv) (it'.move mv) s := by
  cases mv <;> rfl

theorem either_walks (h : it.WalksOn P I m) (h' : it'.WalksOn P J m) :
    (either it it').WalksOn P (Sum.elim I J) m where
  mem s e hs he := by
    cases s with
    | inl s => exact h.mem s e hs he
    | inr s => exact h'.mem s e hs he
  keeps mv s hs hmv hseek := by
    rw [either_move]
    cases s with
    | inl s => exact h.keeps mv s hs hmv hseek
    | inr s => exact h'.keeps mv s hs hmv hseek
  target mv s hs hmv hseek := by
    rw [either_move]
    cases s with
    | inl s => exact h.target mv s hs hmv hseek
    | inr s => exact h'.target mv s hs hmv hseek

def drain (it : Walker σ α β) : ℕ → σ → List (α × β)
  | 0, _ => []
  | n + 1, s =>
    match it.current s with
    | none => []
    | some e => e :: drain it n (it.next s)

theorem WalksOn.drain_eq (h : it.WalksOn P I m) {before after : List (α × β)}
    (hsplit : before.reverse ++ after = m.entries) {s : σ} (hs : I s)
    (hcurrent : it.current s = after.head?) {n : ℕ} (hn : after.length ≤ n) : it.drain n s = after := by
  induction after generalizing before s n with
  | nil =>
    cases n with
    | zero => rfl
    | succ n => rw [drain, hcurrent, List.head?_nil]
  | cons e after ih =>
    obtain ⟨n, rfl⟩ : ∃ k, n = k + 1 := ⟨n - 1, by rw [List.length_cons] at hn; omega⟩
    obtain ⟨hs', hcurrent'⟩ := h.next_split hs hcurrent hsplit
    have hsplit' : (e :: before).reverse ++ after = m.entries := by simpa using hsplit
    have hrest := ih hsplit' hs' hcurrent' (Nat.succ_le_succ_iff.mp hn)
    rw [drain, hcurrent, List.head?_cons]
    exact congrArg (List.cons e) hrest

theorem WalksOn.drain_all (h : it.WalksOn P I m) {s : σ} (hs : I s) {n : ℕ} (hn : m.size ≤ n) :
    it.drain n (it.seekToFirst s) = m.entries := by
  obtain ⟨hfirst, hcurrent⟩ := h.seekToFirst_split hs
  have hsplit : ([] : List (α × β)).reverse ++ m.entries = m.entries := rfl
  exact h.drain_eq hsplit hfirst hcurrent hn

theorem walks_of_each {ι : Type} {I : ι → σ → Prop} (h : ∀ i s, I i s → it.WalksOn P (I i) m) :
    it.WalksOn P (fun s => ∃ i, I i s) m where
  mem s e hs he := by
    obtain ⟨i, hi⟩ := hs
    exact (h i s hi).mem s e hi he
  keeps mv s hs hmv hseek := by
    obtain ⟨i, hi⟩ := hs
    exact ⟨i, (h i s hi).keeps mv s hi hmv hseek⟩
  target mv s hs hmv hseek := by
    obtain ⟨i, hi⟩ := hs
    exact (h i s hi).target mv s hi hmv hseek

end Walker

namespace OrdMap
variable {α β : Type} [LinearOrder α] {m : OrdMap α β} {i : ℕ} {e : α × β}

theorem split_at (h : m.entries[i]? = some e) :
    (m.entries.take i).reverse.reverse ++ e :: m.entries.drop (i + 1) = m.entries := by
  obtain ⟨hi, rfl⟩ := List.getElem?_eq_some_iff.mp h
  rw [List.reverse_reverse, List.cons_getElem_drop_succ, List.take_append_drop]

theorem least_next (h : m.entries[i]? = some e) : m.least (Move.above e.1) = m.entries[i + 1]? := by
  rw [Cursor.current_next (split_at h), List.head?_drop]

theorem greatest_prev (h : m.entries[i]? = some e) :
    m.greatest (Move.below e.1) = if i = 0 then none else m.entries[i - 1]? := by
  rw [Cursor.current_prev (split_at h)]
  split_ifs with hi
  · simp [hi]
  · have hlt : i - 1 < i := by omega
    rw [List.head?_reverse, List.getLast?_take, if_neg hi]
    obtain ⟨hlt', -⟩ := List.getElem?_eq_some_iff.mp h
    rw [List.getElem?_eq_getElem (by omega), Option.some_or]

theorem least_first (m : OrdMap α β) : m.least (fun _ => true) = m.entries[0]? := by
  rw [least_true, List.head?_eq_getElem?]

theorem greatest_last (m : OrdMap α β) : m.greatest (fun _ => true) = m.entries[m.entries.length - 1]? := by
  rw [greatest_true, List.head?_reverse, List.getLast?_eq_getElem?]

end OrdMap
