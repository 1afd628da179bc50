import Mathlib.Data.List.Basic

inductive Inquiry (κ ρ α : Type) where
  | done (a : α)
  | ask (key : κ) (next : ρ → Inquiry κ ρ α)

namespace Inquiry

variable {κ ρ α β γ : Type}

def bind : Inquiry κ ρ α → (α → Inquiry κ ρ β) → Inquiry κ ρ β
  | done a, f => f a
  | ask key next, f => ask key fun r => (next r).bind f

def map (f : α → β) : Inquiry κ ρ α → Inquiry κ ρ β
  | done a => done (f a)
  | ask key next => ask key fun r => (next r).map f

def one (key : κ) (f : ρ → α) : Inquiry κ ρ α := ask key fun r => done (f r)

def answered (db : κ → ρ) : Inquiry κ ρ α → α
  | done a => a
  | ask key next => (next (db key)).answered db

def Every (P : α → Prop) : Inquiry κ ρ α → Prop
  | done a => P a
  | ask _ next => ∀ r, (next r).Every P

def reply (db : κ → ρ) (fault : ρ) (g : List Bool) (key : κ) : ρ :=
  if g.head? = some true then fault else db key

def resolve (db : κ → ρ) (fault : ρ) : Inquiry κ ρ α → List Bool → α × List Bool
  | done a, g => (a, g)
  | ask key next, g => (next (reply db fault g key)).resolve db fault g.tail

def Fails (db : κ → ρ) (fault : ρ) : Inquiry κ ρ α → List Bool → Prop
  | done _, _ => False
  | ask key next, g => g.head? = some true ∨ (next (reply db fault g key)).Fails db fault g.tail

section bind
variable {P : β → Prop} {db : κ → ρ} {fault : ρ}

theorem every_bind {Q : α → Prop} {T : Inquiry κ ρ α} {f : α → Inquiry κ ρ β} (hT : T.Every Q)
    (hf : ∀ a, Q a → (f a).Every P) : (T.bind f).Every P := by
  induction T with
  | done a => exact hf a hT
  | ask key next ih =>
    intro r
    exact ih r (hT r)

theorem every_map {f : α → β} {T : Inquiry κ ρ α} (hT : T.Every fun a => P (f a)) :
    (T.map f).Every P := by
  induction T with
  | done a => exact hT
  | ask key next ih =>
    intro r
    exact ih r (hT r)

theorem Every.imp {P Q : α → Prop} {T : Inquiry κ ρ α} (hT : T.Every P) (h : ∀ a, P a → Q a) :
    T.Every Q := by
  induction T with
  | done a => exact h a hT
  | ask key next ih =>
    intro r
    exact ih r (hT r)

theorem every_ite {P : α → Prop} {c : Prop} [Decidable c] {T U : Inquiry κ ρ α}
    (hT : c → T.Every P) (hU : ¬c → U.Every P) : (if c then T else U).Every P := by
  split_ifs with h
  · exact hT h
  · exact hU h

theorem map_bind (T : Inquiry κ ρ α) (f : α → Inquiry κ ρ β) (g : β → γ) :
    (T.bind f).map g = T.bind fun a => (f a).map g := by
  induction T with
  | done a => rfl
  | ask key next ih =>
    simp only [bind, map]
    congr 1
    funext r
    exact ih r

theorem every_of_forall {P : α → Prop} (h : ∀ a, P a) (T : Inquiry κ ρ α) : T.Every P := by
  induction T with
  | done a => exact h a
  | ask key next ih => exact ih

theorem answered_bind (T : Inquiry κ ρ α) (f : α → Inquiry κ ρ β) :
    (T.bind f).answered db = (f (T.answered db)).answered db := by
  induction T with
  | done a => rfl
  | ask key next ih => exact ih (db key)

theorem answered_map (T : Inquiry κ ρ α) (f : α → β) :
    (T.map f).answered db = f (T.answered db) := by
  induction T with
  | done a => rfl
  | ask key next ih => exact ih (db key)

theorem answered_ite {c : Prop} [Decidable c] (T U : Inquiry κ ρ α) :
    (if c then T else U).answered db = if c then T.answered db else U.answered db := by
  split_ifs <;> rfl

theorem resolve_bind (T : Inquiry κ ρ α) (f : α → Inquiry κ ρ β) (g : List Bool) :
    (T.bind f).resolve db fault g =
      (f (T.resolve db fault g).1).resolve db fault (T.resolve db fault g).2 := by
  induction T generalizing g with
  | done a => rfl
  | ask key next ih => exact ih _ g.tail

theorem resolve_map (T : Inquiry κ ρ α) (f : α → β) (g : List Bool) :
    (T.map f).resolve db fault g = (f (T.resolve db fault g).1, (T.resolve db fault g).2) := by
  induction T generalizing g with
  | done a => rfl
  | ask key next ih => exact ih _ g.tail

theorem fails_map (T : Inquiry κ ρ α) (f : α → β) (g : List Bool) :
    (T.map f).Fails db fault g ↔ T.Fails db fault g := by
  induction T generalizing g with
  | done a => rfl
  | ask key next ih =>
    have h := ih (reply db fault g key) g.tail
    simp only [map, Fails, h]

end bind

section outcomes
variable {db : κ → ρ} {fault : ρ}

theorem resolve_every {P : α → Prop} {T : Inquiry κ ρ α} (h : T.Every P) (g : List Bool) :
    P (T.resolve db fault g).1 := by
  induction T generalizing g with
  | done a => exact h
  | ask key next ih => exact ih _ (h _) g.tail

theorem resolve_answered {T : Inquiry κ ρ α} {g : List Bool} (h : ¬T.Fails db fault g) :
    (T.resolve db fault g).1 = T.answered db := by
  induction T generalizing g with
  | done a => rfl
  | ask key next ih =>
    simp only [Fails, not_or] at h
    have hreply : reply db fault g key = db key := if_neg h.1
    simp only [resolve, answered, hreply] at h ⊢
    exact ih _ h.2

theorem resolve_nil (T : Inquiry κ ρ α) : T.resolve db fault [] = (T.answered db, []) := by
  induction T with
  | done a => rfl
  | ask key next ih => exact ih (db key)

theorem resolve_suffix (T : Inquiry κ ρ α) (g : List Bool) : (T.resolve db fault g).2 <:+ g := by
  induction T generalizing g with
  | done a => exact List.suffix_rfl
  | ask key next ih => exact (ih _ g.tail).trans (List.tail_suffix g)

theorem fails_iff_mem_take (T : Inquiry κ ρ α) (g : List Bool) :
    T.Fails db fault g ↔ true ∈ g.take (g.length - (T.resolve db fault g).2.length) := by
  induction T generalizing g with
  | done a => simp [Fails, resolve]
  | ask key next ih =>
    simp only [Fails, resolve]
    rw [ih _ g.tail]
    cases g with
    | nil => simp
    | cons b g =>
      have hle : ((next (reply db fault (b :: g) key)).resolve db fault g).2.length ≤ g.length :=
        (resolve_suffix _ g).length_le
      simp only [List.head?_cons, List.tail_cons, List.length_cons] at hle ⊢
      rw [Nat.succ_sub hle, List.take_succ_cons, List.mem_cons]
      exact or_congr_left ⟨fun h => (Option.some.inj h).symm, fun h => congrArg some h.symm⟩

def Guarded (fault : ρ) (P : α → Prop) : Inquiry κ ρ α → Prop
  | done _ => True
  | ask _ next => (next fault).Every P ∧ ∀ r, (next r).Guarded fault P

theorem guarded_fails {P : α → Prop} {T : Inquiry κ ρ α} (hT : T.Guarded fault P) {g : List Bool}
    (hg : T.Fails db fault g) : P (T.resolve db fault g).1 := by
  induction T generalizing g with
  | done a => exact hg.elim
  | ask key next ih =>
    rcases hg with hhead | hrest
    · have hreply : reply db fault g key = fault := if_pos hhead
      rw [resolve, hreply]
      exact resolve_every hT.1 g.tail
    · exact ih _ (hT.2 _) hrest

theorem guarded_map {P : β → Prop} {f : α → β} {T : Inquiry κ ρ α}
    (hT : T.Guarded fault fun a => P (f a)) : (T.map f).Guarded fault P := by
  induction T with
  | done a => trivial
  | ask key next ih => exact ⟨every_map hT.1, fun r => ih r (hT.2 r)⟩

theorem guarded_ite {P : α → Prop} {c : Prop} [Decidable c] {T U : Inquiry κ ρ α}
    (hT : T.Guarded fault P) (hU : U.Guarded fault P) : (if c then T else U).Guarded fault P := by
  split_ifs
  · exact hT
  · exact hU

end outcomes

end Inquiry
