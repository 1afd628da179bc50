import Ssdb.Library.Cursor
import Ssdb.Library.Trace

namespace OrdMap
variable {α β : Type} [LinearOrder α] {m : OrdMap α β} {e : α × β} {l₁ l₂ : List (α × β)}

def least (m : OrdMap α β) (p : α → Bool) : Option (α × β) := m.entries.find? fun e => p e.1

def greatest (m : OrdMap α β) (p : α → Bool) : Option (α × β) :=
  m.entries.reverse.find? fun e => p e.1

theorem least_eq_some_iff {p : α → Bool} : m.least p = some e ↔
    e ∈ m.entries ∧ p e.1 = true ∧ ∀ e' ∈ m.entries, p e'.1 = true → e.1 ≤ e'.1 := by
  obtain ⟨entries, hs⟩ := m
  rw [least]
  dsimp only
  induction entries with
  | nil => simp
  | cons x l ih =>
    obtain ⟨hx, hl⟩ := List.pairwise_cons.mp hs
    rw [List.find?_cons]
    cases hp : p x.1 with
    | true =>
      constructor
      · intro h
        obtain rfl := Option.some.inj h
        refine ⟨by simp, hp, fun e' he' _ => ?_⟩
        rcases List.mem_cons.mp he' with rfl | he'
        · exact le_rfl
        · exact (hx e' he').le
      · rintro ⟨hmem, -, hleast⟩
        rcases List.mem_cons.mp hmem with rfl | hmem
        · rfl
        · exact absurd (hleast x (by simp) hp) (not_le.mpr (hx e hmem))
    | false =>
      rw [ih hl]
      constructor
      · rintro ⟨hmem, hpe, hleast⟩
        refine ⟨by simp [hmem], hpe, fun e' he' hp' => ?_⟩
        rcases List.mem_cons.mp he' with rfl | he'
        · simp [hp] at hp'
        · exact hleast e' he' hp'
      · rintro ⟨hmem, hpe, hleast⟩
        refine ⟨?_, hpe, fun e' he' hp' => hleast e' (by simp [he']) hp'⟩
        rcases List.mem_cons.mp hmem with rfl | hmem
        · simp [hp] at hpe
        · exact hmem

theorem greatest_eq_some_iff {p : α → Bool} : m.greatest p = some e ↔
    e ∈ m.entries ∧ p e.1 = true ∧ ∀ e' ∈ m.entries, p e'.1 = true → e'.1 ≤ e.1 := by
  obtain ⟨entries, hs⟩ := m
  rw [greatest]
  dsimp only
  induction entries using List.reverseRecOn with
  | nil => simp
  | append_singleton l x ih =>
    obtain ⟨hl, -, hx⟩ := List.pairwise_append.mp hs
    rw [List.reverse_append, List.reverse_singleton, List.singleton_append, List.find?_cons]
    cases hp : p x.1 with
    | true =>
      constructor
      · intro h
        obtain rfl := Option.some.inj h
        refine ⟨by simp, hp, fun e' he' _ => ?_⟩
        rcases List.mem_append.mp he' with he' | he'
        · exact (hx e' he' x (by simp)).le
        · exact (congrArg Prod.fst (List.mem_singleton.mp he')).le
      · rintro ⟨hmem, -, hgreatest⟩
        rcases List.mem_append.mp hmem with hmem | hmem
        · exact absurd (hgreatest x (by simp) hp) (not_le.mpr (hx e hmem x (by simp)))
        · rw [List.mem_singleton.mp hmem]
    | false =>
      rw [ih hl]
      constructor
      · rintro ⟨hmem, hpe, hgreatest⟩
        refine ⟨by simp [hmem], hpe, fun e' he' hp' => ?_⟩
        rcases List.mem_append.mp he' with he' | he'
        · exact hgreatest e' he' hp'
        · simp [List.mem_singleton.mp he', hp] at hp'
      · rintro ⟨hmem, hpe, hgreatest⟩
        refine ⟨?_, hpe, fun e' he' hp' => hgreatest e' (by simp [he']) hp'⟩
        rcases List.mem_append.mp hmem with hmem | hmem
        · exact hmem
        · simp [List.mem_singleton.mp hmem, hp] at hpe

theorem least_eq_none_iff {p : α → Bool} :
    m.least p = none ↔ ∀ e ∈ m.entries, p e.1 = false := by
  simp [least]

theorem greatest_eq_none_iff {p : α → Bool} :
    m.greatest p = none ↔ ∀ e ∈ m.entries, p e.1 = false := by
  simp [greatest]

theorem least_congr {p q : α → Bool} (h : ∀ e ∈ m.entries, p e.1 = q e.1) : m.least p = m.least q := by
  refine Option.ext fun e => ?_
  rw [least_eq_some_iff, least_eq_some_iff]
  refine and_congr_right fun he => and_congr (by rw [h e he]) (forall₂_congr fun e' he' => ?_)
  rw [h e' he']

theorem greatest_congr {p q : α → Bool} (h : ∀ e ∈ m.entries, p e.1 = q e.1) :
    m.greatest p = m.greatest q := by
  refine Option.ext fun e => ?_
  rw [greatest_eq_some_iff, greatest_eq_some_iff]
  refine and_congr_right fun he => and_congr (by rw [h e he]) (forall₂_congr fun e' he' => ?_)
  rw [h e' he']

theorem least_true : m.least (fun _ => true) = m.entries.head? := by
  rw [least]
  cases m.entries <;> rfl

theorem greatest_true : m.greatest (fun _ => true) = m.entries.reverse.head? := by
  rw [greatest]
  cases m.entries.reverse <;> rfl

end OrdMap

inductive Move (α : Type) where
  | seek (k : α)
  | seekToFirst
  | seekToLast
  | next
  | prev
deriving DecidableEq, Repr

namespace Move
variable {α β : Type} [LinearOrder α]

def Allowed : Move α → Option (α × β) → Prop
  | .next, p => p.isSome
  | .prev, p => p.isSome
  | _, _ => True

instance decidableAllowed (mv : Move α) (p : Option (α × β)) : Decidable (mv.Allowed p) :=
  match mv with
  | .seek _ => inferInstanceAs (Decidable True)
  | .seekToFirst => inferInstanceAs (Decidable True)
  | .seekToLast => inferInstanceAs (Decidable True)
  | .next => inferInstanceAs (Decidable (p.isSome = true))
  | .prev => inferInstanceAs (Decidable (p.isSome = true))

def SeeksIn (P : α → Prop) : Move α → Prop
  | .seek k => P k
  | _ => True

instance decidableSeeksIn (P : α → Prop) [DecidablePred P] (mv : Move α) : Decidable (mv.SeeksIn P) :=
  match mv with
  | .seek k => inferInstanceAs (Decidable (P k))
  | .seekToFirst => inferInstanceAs (Decidable True)
  | .seekToLast => inferInstanceAs (Decidable True)
  | .next => inferInstanceAs (Decidable True)
  | .prev => inferInstanceAs (Decidable True)

omit [LinearOrder α] in
theorem seeksIn_true (mv : Move α) : mv.SeeksIn fun _ => True := by
  cases mv <;> trivial

def since (k k' : α) : Bool := k ≤ k'

def above (k k' : α) : Bool := k < k'

def below (k k' : α) : Bool := k' < k

def upTo (k k' : α) : Bool := k' ≤ k

def target (m : OrdMap α β) : Move α → Option (α × β) → Option (α × β)
  | .seek k, _ => m.least (since k)
  | .seekToFirst, _ => m.least fun _ => true
  | .seekToLast, _ => m.greatest fun _ => true
  | .next, p => p.bind fun e => m.least (above e.1)
  | .prev, p => p.bind fun e => m.greatest (below e.1)

variable {k k' : α}

theorem since_iff : since k k' = true ↔ k ≤ k' := decide_eq_true_iff

theorem above_iff : above k k' = true ↔ k < k' := decide_eq_true_iff

theorem below_iff : below k k' = true ↔ k' < k := decide_eq_true_iff

theorem upTo_iff : upTo k k' = true ↔ k' ≤ k := decide_eq_true_iff

theorem since_false_iff : since k k' = false ↔ k' < k := by
  rw [← Bool.not_eq_true, since_iff, not_le]

theorem above_false_iff : above k k' = false ↔ k' ≤ k := by
  rw [← Bool.not_eq_true, above_iff, not_lt]

theorem below_false_iff : below k k' = false ↔ k ≤ k' := by
  rw [← Bool.not_eq_true, below_iff, not_lt]

end Move

structure Walker (σ α β : Type) where
  current : σ → Option (α × β)
  seek : α → σ → σ
  seekToFirst : σ → σ
  seekToLast : σ → σ
  next : σ → σ
  prev : σ → σ

namespace Walker
variable {σ α β : Type} [LinearOrder α] {m : OrdMap α β} {it : Walker σ α β} {Inv : σ → Prop} {s : σ}

def move (it : Walker σ α β) : Move α → σ → σ
  | .seek k => it.seek k
  | .seekToFirst => it.seekToFirst
  | .seekToLast => it.seekToLast
  | .next => it.next
  | .prev => it.prev

def valid (it : Walker σ α β) (s : σ) : Bool := (it.current s).isSome

structure WalksOn (it : Walker σ α β) (P : α → Prop) (Inv : σ → Prop) (m : OrdMap α β) : Prop where
  mem : ∀ s e, Inv s → it.current s = some e → e ∈ m.entries
  keeps : ∀ mv s, Inv s → mv.Allowed (it.current s) → mv.SeeksIn P → Inv (it.move mv s)
  target : ∀ mv s, Inv s → mv.Allowed (it.current s) → mv.SeeksIn P →
    it.current (it.move mv s) = mv.target m (it.current s)

abbrev Walks (it : Walker σ α β) (Inv : σ → Prop) (m : OrdMap α β) : Prop :=
  it.WalksOn (fun _ => True) Inv m

theorem WalksOn.mono {P Q : α → Prop} (h : it.WalksOn P Inv m) (hPQ : ∀ k, Q k → P k) :
    it.WalksOn Q Inv m := by
  have hmove (mv : Move α) (hmv : mv.SeeksIn Q) : mv.SeeksIn P := by
    cases mv with
    | seek k => exact hPQ k hmv
    | seekToFirst | seekToLast | next | prev => trivial
  exact ⟨h.mem, fun mv s hs ha hq => h.keeps mv s hs ha (hmove mv hq),
    fun mv s hs ha hq => h.target mv s hs ha (hmove mv hq)⟩

theorem WalksOn.agree {σ' : Type} {it' : Walker σ' α β} {Inv' : σ' → Prop} {s' : σ'} {P : α → Prop}
    {moves : List (Move α)} (h : it.WalksOn P Inv m) (h' : it'.WalksOn P Inv' m) (hs : Inv s)
    (hs' : Inv' s') (hcurrent : it.current s = it'.current s')
    (hallowed : Trace.Along it.move (fun mv s => mv.Allowed (it.current s)) moves s)
    (hsought : ∀ mv ∈ moves, mv.SeeksIn P) :
    it.current (Trace.run it.move moves s) = it'.current (Trace.run it'.move moves s') := by
  let together (s : σ) (s' : σ') : Prop := Inv s ∧ Inv' s' ∧ it.current s = it'.current s'
  have hrun : together (Trace.run it.move moves s) (Trace.run it'.move moves s') := by
    refine (hallowed.and (Trace.along_of_forall hsought)).simulation (fun mv s s' hmv hr => ?_)
      ⟨hs, hs', hcurrent⟩
    obtain ⟨hs, hs', hcurrent⟩ := hr
    obtain ⟨hmv, hseek⟩ := hmv
    have hmv' : mv.Allowed (it'.current s') := hcurrent ▸ hmv
    refine ⟨h.keeps mv s hs hmv hseek, h'.keeps mv s' hs' hmv' hseek, ?_⟩
    rw [h.target mv s hs hmv hseek, h'.target mv s' hs' hmv' hseek, hcurrent]
  exact hrun.2.2

theorem Walks.agree {σ' : Type} {it' : Walker σ' α β} {Inv' : σ' → Prop} {s' : σ'}
    {moves : List (Move α)} (h : it.Walks Inv m) (h' : it'.Walks Inv' m) (hs : Inv s) (hs' : Inv' s')
    (hcurrent : it.current s = it'.current s')
    (hallowed : Trace.Along it.move (fun mv s => mv.Allowed (it.current s)) moves s) :
    it.current (Trace.run it.move moves s) = it'.current (Trace.run it'.move moves s') :=
  WalksOn.agree h h' hs hs' hcurrent hallowed fun mv _ => mv.seeksIn_true

end Walker

namespace Cursor
variable {α β : Type} [LinearOrder α] {m : OrdMap α β} {c : Cursor α β}

def walker (m : OrdMap α β) : Walker (Cursor α β) α β where
  current := current
  seek k _ := seek m k
  seekToFirst _ := seekToFirst m
  seekToLast _ := seekToLast m
  next := next
  prev := prev

def Splits (m : OrdMap α β) (c : Cursor α β) : Prop :=
  c.valid = true → c.before.reverse ++ c.after = m.entries

theorem Splits.ordered {e : α × β} {before after : List (α × β)}
    (h : before.reverse ++ e :: after = m.entries) :
    (∀ e' ∈ before, e'.1 < e.1) ∧ ∀ e' ∈ after, e.1 < e'.1 := by
  have hs := m.sorted
  rw [← h] at hs
  obtain ⟨-, hright, hacross⟩ := List.pairwise_append.mp hs
  exact ⟨fun e' he' => hacross e' (by simpa using he') e (by simp),
    (List.pairwise_cons.mp hright).1⟩

theorem least_splits {p : α → Bool} (before after : List (α × β))
    (h : before.reverse ++ after = m.entries) (hbefore : ∀ e ∈ before, p e.1 = false)
    (hafter : ∀ e ∈ after, p e.1 = true) : m.least p = after.head? := by
  have hnone : before.reverse.find? (fun e => p e.1) = none := by
    simpa using fun a b hab => hbefore (a, b) hab
  rw [OrdMap.least, ← h, List.find?_append, hnone, Option.none_or]
  cases after with
  | nil => rfl
  | cons e after => simp [hafter e]

theorem greatest_splits {p : α → Bool} (before after : List (α × β))
    (h : before.reverse ++ after = m.entries) (hbefore : ∀ e ∈ before, p e.1 = true)
    (hafter : ∀ e ∈ after, p e.1 = false) : m.greatest p = before.head? := by
  have hnone : after.reverse.find? (fun e => p e.1) = none := by
    simpa using fun a b hab => hafter (a, b) hab
  rw [OrdMap.greatest, ← h, List.reverse_append, List.reverse_reverse, List.find?_append, hnone,
    Option.none_or]
  cases before with
  | nil => rfl
  | cons e before => simp [hbefore e]

theorem current_next {e : α × β} {before after : List (α × β)}
    (h : before.reverse ++ e :: after = m.entries) :
    m.least (Move.above e.1) = after.head? := by
  obtain ⟨hbefore, hafter⟩ := Splits.ordered h
  refine least_splits (e :: before) after (by simpa using h) (fun e' he' => ?_) fun e' he' => ?_
  · rcases List.mem_cons.mp he' with rfl | he'
    · exact Move.above_false_iff.mpr le_rfl
    · exact Move.above_false_iff.mpr (hbefore e' he').le
  · exact Move.above_iff.mpr (hafter e' he')

theorem current_prev {e : α × β} {before after : List (α × β)}
    (h : before.reverse ++ e :: after = m.entries) :
    m.greatest (Move.below e.1) = before.head? := by
  obtain ⟨hbefore, hafter⟩ := Splits.ordered h
  refine greatest_splits before (e :: after) h (fun e' he' => Move.below_iff.mpr (hbefore e' he'))
    fun e' he' => ?_
  rcases List.mem_cons.mp he' with rfl | he'
  · exact Move.below_false_iff.mpr le_rfl
  · exact Move.below_false_iff.mpr (hafter e' he').le

theorem walks (m : OrdMap α β) : (walker m).Walks (Splits m) m where
  mem c e hc he := by
    have hvalid : c.valid = true := by simp [valid, show c.current = some e from he]
    rw [← hc hvalid]
    exact List.mem_append_right _ (List.mem_of_head? he)
  keeps mv c hc hmv _ := by
    cases mv with
    | seek k => exact fun _ => by simp [walker, Walker.move, seek]
    | seekToFirst => exact fun _ => by simp [walker, Walker.move, seekToFirst]
    | seekToLast =>
      intro _
      change (seekToLast m).before.reverse ++ (seekToLast m).after = m.entries
      rw [seekToLast]
      cases hm : m.entries.reverse with
      | nil => simpa using congrArg List.reverse hm.symm
      | cons e es => simpa using congrArg List.reverse hm.symm
    | next =>
      obtain ⟨before, after⟩ := c
      cases after with
      | nil => exact fun h => absurd h (by simp [walker, Walker.move, next, valid, current])
      | cons e after =>
        intro _
        simpa [walker, Walker.move, next] using hc rfl
    | prev =>
      obtain ⟨before, after⟩ := c
      cases after with
      | nil => simp [Move.Allowed, walker, current] at hmv
      | cons e after =>
        have hsplit := hc rfl
        cases before with
        | nil => exact fun h => absurd h (by simp [walker, Walker.move, prev, valid, current])
        | cons e' before =>
          intro _
          simpa [walker, Walker.move, prev] using hsplit
  target mv c hc hmv _ := by
    cases mv with
    | seek k =>
      change (seek m k).after.head? = m.least (Move.since k)
      refine (least_splits (seek m k).before (seek m k).after (by simp [seek]) (fun e he => ?_)
        fun e he => ?_).symm
      · rw [seek_before, List.mem_reverse, List.mem_filter, decide_eq_true_iff] at he
        exact Move.since_false_iff.mpr he.2
      · rw [seek_after, List.mem_filter, decide_eq_true_iff] at he
        exact Move.since_iff.mpr he.2
    | seekToFirst =>
      exact OrdMap.least_true.symm
    | seekToLast =>
      change (seekToLast m).after.head? = m.greatest fun _ => true
      rw [seekToLast, OrdMap.greatest_true]
      cases m.entries.reverse <;> rfl
    | next =>
      obtain ⟨before, after⟩ := c
      cases after with
      | nil => simp [Move.Allowed, walker, current] at hmv
      | cons e after => exact (current_next (hc rfl)).symm
    | prev =>
      obtain ⟨before, after⟩ := c
      cases after with
      | nil => simp [Move.Allowed, walker, current] at hmv
      | cons e after =>
        refine Eq.trans ?_ (current_prev (hc rfl)).symm
        cases before with
        | nil => rfl
        | cons e' before => rfl

def held : Walker (OrdMap α β × Cursor α β) α β where
  current s := s.2.current
  seek k s := (s.1, seek s.1 k)
  seekToFirst s := (s.1, seekToFirst s.1)
  seekToLast s := (s.1, seekToLast s.1)
  next s := (s.1, s.2.next)
  prev s := (s.1, s.2.prev)

theorem held_move (mv : Move α) (s : OrdMap α β × Cursor α β) :
    held.move mv s = (s.1, (walker s.1).move mv s.2) := by
  cases mv <;> rfl

theorem held_walks (m : OrdMap α β) : held.Walks (fun s => s.1 = m ∧ Splits m s.2) m where
  mem s e hs he := (walks m).mem s.2 e hs.2 he
  keeps mv s hs hmv hseek := by
    obtain ⟨rfl, hs⟩ := hs
    rw [held_move]
    exact ⟨rfl, (walks s.1).keeps mv s.2 hs hmv hseek⟩
  target mv s hs hmv hseek := by
    obtain ⟨rfl, hs⟩ := hs
    rw [held_move]
    exact (walks s.1).target mv s.2 hs hmv hseek

end Cursor

namespace Walker.WalksOn
variable {σ α β : Type} [LinearOrder α] {m : OrdMap α β} {it : Walker σ α β} {Inv : σ → Prop} {s : σ}
  {P : α → Prop} {e : α × β} {before after : List (α × β)}

theorem seek_at (h : it.WalksOn P Inv m) (hs : Inv s) {k : α} (hk : P k) :
    Inv (it.seek k s) ∧ it.current (it.seek k s) = m.least (Move.since k) :=
  ⟨h.keeps (.seek k) s hs trivial hk, h.target (.seek k) s hs trivial hk⟩

theorem seekToFirst_at (h : it.WalksOn P Inv m) (hs : Inv s) :
    Inv (it.seekToFirst s) ∧ it.current (it.seekToFirst s) = m.least fun _ => true :=
  ⟨h.keeps .seekToFirst s hs trivial trivial, h.target .seekToFirst s hs trivial trivial⟩

theorem seekToLast_at (h : it.WalksOn P Inv m) (hs : Inv s) :
    Inv (it.seekToLast s) ∧ it.current (it.seekToLast s) = m.greatest fun _ => true :=
  ⟨h.keeps .seekToLast s hs trivial trivial, h.target .seekToLast s hs trivial trivial⟩

theorem next_at (h : it.WalksOn P Inv m) (hs : Inv s) (he : it.current s = some e) :
    Inv (it.next s) ∧ it.current (it.next s) = m.least (Move.above e.1) := by
  have hallowed : Move.next.Allowed (it.current s) := by simp [Move.Allowed, he]
  refine ⟨h.keeps .next s hs hallowed trivial, (h.target .next s hs hallowed trivial).trans ?_⟩
  rw [he]
  rfl

theorem prev_at (h : it.WalksOn P Inv m) (hs : Inv s) (he : it.current s = some e) :
    Inv (it.prev s) ∧ it.current (it.prev s) = m.greatest (Move.below e.1) := by
  have hallowed : Move.prev.Allowed (it.current s) := by simp [Move.Allowed, he]
  refine ⟨h.keeps .prev s hs hallowed trivial, (h.target .prev s hs hallowed trivial).trans ?_⟩
  rw [he]
  rfl

theorem next_split (h : it.WalksOn P Inv m) (hs : Inv s) (he : it.current s = some e)
    (hsplit : before.reverse ++ e :: after = m.entries) :
    Inv (it.next s) ∧ it.current (it.next s) = after.head? := by
  obtain ⟨hkeep, hcurrent⟩ := h.next_at hs he
  exact ⟨hkeep, hcurrent.trans (Cursor.current_next hsplit)⟩

theorem prev_split (h : it.WalksOn P Inv m) (hs : Inv s) (he : it.current s = some e)
    (hsplit : before.reverse ++ e :: after = m.entries) :
    Inv (it.prev s) ∧ it.current (it.prev s) = before.head? := by
  obtain ⟨hkeep, hcurrent⟩ := h.prev_at hs he
  exact ⟨hkeep, hcurrent.trans (Cursor.current_prev hsplit)⟩

theorem seek_split (h : it.WalksOn P Inv m) (hs : Inv s) {k : α} (hk : P k) :
    Inv (it.seek k s) ∧ ∃ before after : List (α × β), before.reverse ++ after = m.entries ∧
      it.current (it.seek k s) = after.head? ∧ (∀ e ∈ before, e.1 < k) ∧ ∀ e ∈ after, k ≤ e.1 := by
  have hbefore (e : α × β) (he : e ∈ (Cursor.seek m k).before) : e.1 < k := by
    rw [Cursor.seek_before, List.mem_reverse, List.mem_filter, decide_eq_true_iff] at he
    exact he.2
  have hafter (e : α × β) (he : e ∈ (Cursor.seek m k).after) : k ≤ e.1 := by
    rw [Cursor.seek_after, List.mem_filter, decide_eq_true_iff] at he
    exact he.2
  have hsplit : (Cursor.seek m k).before.reverse ++ (Cursor.seek m k).after = m.entries := by
    simp [Cursor.seek]
  obtain ⟨hkeep, hcurrent⟩ := h.seek_at hs hk
  refine ⟨hkeep, _, _, hsplit, hcurrent.trans ?_, hbefore, hafter⟩
  exact Cursor.least_splits _ _ hsplit (fun e he => Move.since_false_iff.mpr (hbefore e he))
    fun e he => Move.since_iff.mpr (hafter e he)

theorem seekToFirst_split (h : it.WalksOn P Inv m) (hs : Inv s) :
    Inv (it.seekToFirst s) ∧ it.current (it.seekToFirst s) = m.entries.head? := by
  obtain ⟨hkeep, hcurrent⟩ := h.seekToFirst_at hs
  exact ⟨hkeep, hcurrent.trans OrdMap.least_true⟩

theorem seekToLast_split (h : it.WalksOn P Inv m) (hs : Inv s) :
    Inv (it.seekToLast s) ∧ it.current (it.seekToLast s) = m.entries.reverse.head? := by
  obtain ⟨hkeep, hcurrent⟩ := h.seekToLast_at hs
  exact ⟨hkeep, hcurrent.trans OrdMap.greatest_true⟩

end Walker.WalksOn
