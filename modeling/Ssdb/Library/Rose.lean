import Mathlib.Tactic

inductive Rose (α : Type) where
  | node (label : α) (children : List (Rose α))

namespace Rose
variable {α : Type}

def label : Rose α → α
  | node a _ => a

def children : Rose α → List (Rose α)
  | node _ ts => ts

def leaf (a : α) : Rose α := node a []

def subtree : List ℕ → Rose α → Option (Rose α)
  | [], t => some t
  | i :: p, t => t.children[i]?.bind (subtree p)

def labelAt (p : List ℕ) (t : Rose α) : Option α := (t.subtree p).map label

def modify (f : Rose α → Rose α) : List ℕ → Rose α → Rose α
  | [], t => f t
  | i :: p, t => node t.label (t.children.modify i (modify f p))

def push (us : List (Rose α)) (t : Rose α) : Rose α := node t.label (t.children ++ us)

def relabel (f : α → α) (t : Rose α) : Rose α := node (f t.label) t.children

theorem node_eta (t : Rose α) : node t.label t.children = t := by
  cases t with
  | node a ts => rfl

theorem exists_subtree {p : List ℕ} {t : Rose α} (h : t.labelAt p ≠ none) :
    ∃ u, t.subtree p = some u := by
  rw [labelAt, ne_eq, Option.map_eq_none_iff] at h
  exact Option.ne_none_iff_exists'.mp h

theorem subtree_append (p q : List ℕ) (t : Rose α) :
    t.subtree (p ++ q) = (t.subtree p).bind (subtree q) := by
  induction p generalizing t with
  | nil => rfl
  | cons i p ih =>
    rw [List.cons_append, subtree, subtree, Option.bind_assoc]
    exact congrArg _ (funext ih)

theorem labelAt_append (p q : List ℕ) (t : Rose α) :
    t.labelAt (p ++ q) = (t.subtree p).bind (labelAt q) := by
  rw [labelAt, subtree_append]
  cases t.subtree p <;> rfl

theorem labelAt_cons (i : ℕ) (p : List ℕ) (t : Rose α) :
    t.labelAt (i :: p) = t.children[i]?.bind (labelAt p) := by
  rw [labelAt, subtree]
  cases t.children[i]? <;> rfl

theorem labelAt_leaf (a : α) (p : List ℕ) : (leaf a).labelAt p = if p = [] then some a else none := by
  cases p with
  | nil => rfl
  | cons i p => simp [labelAt_cons, leaf, children]

theorem subtree_modify (f : Rose α → Rose α) (p : List ℕ) (t : Rose α) :
    (t.modify f p).subtree p = (t.subtree p).map f := by
  induction p generalizing t with
  | nil => rfl
  | cons i p ih =>
    rw [modify, subtree, subtree, children, List.getElem?_modify_eq]
    cases t.children[i]? with
    | none => rfl
    | some u => exact ih u

theorem modify_modify (f g : Rose α → Rose α) (p : List ℕ) (t : Rose α) :
    (t.modify f p).modify g p = t.modify (fun u => g (f u)) p := by
  induction p generalizing t with
  | nil => rfl
  | cons i p ih =>
    simp only [modify, label, children, List.modify_modify_eq]
    congr 2
    funext u
    exact ih u

theorem modify_congr {f g : Rose α → Rose α} {p : List ℕ} {t : Rose α}
    (h : ∀ u, t.subtree p = some u → f u = g u) : t.modify f p = t.modify g p := by
  induction p generalizing t with
  | nil => exact h t rfl
  | cons i p ih =>
    rw [modify, modify]
    congr 1
    refine List.ext_getElem? fun j => ?_
    rcases eq_or_ne i j with rfl | hj
    · rw [List.getElem?_modify_eq, List.getElem?_modify_eq]
      cases hu : t.children[i]? with
      | none => rfl
      | some u =>
        refine congrArg some (ih fun v hv => h v ?_)
        rw [subtree, hu]
        exact hv
    · rw [List.getElem?_modify_ne _ _ hj, List.getElem?_modify_ne _ _ hj]

theorem modify_append (f : Rose α → Rose α) (p q : List ℕ) (t : Rose α) :
    t.modify f (p ++ q) = t.modify (modify f q) p := by
  induction p generalizing t with
  | nil => rfl
  | cons i p ih =>
    rw [List.cons_append, modify, modify]
    congr 2
    exact funext ih

theorem modify_last (f : Rose α → Rose α) (ts : List (Rose α)) (u : Rose α) :
    (ts ++ [u]).modify ts.length f = ts ++ [f u] := by
  induction ts with
  | nil => rfl
  | cons t ts ih => rw [List.cons_append, List.length_cons, List.modify_succ_cons, ih, List.cons_append]

theorem modify_push (f : Rose α → Rose α) (u t : Rose α) :
    (t.push [u]).modify f [t.children.length] = t.push [f u] :=
  congrArg (node t.label) (modify_last f t.children u)

theorem label_push (us : List (Rose α)) (t : Rose α) : (t.push us).label = t.label := rfl

theorem push_push (us vs : List (Rose α)) (t : Rose α) : (t.push us).push vs = t.push (us ++ vs) := by
  simp only [push, label, children, List.append_assoc]

theorem push_nil (t : Rose α) : t.push [] = t := by rw [push, List.append_nil, node_eta]

theorem modify_self {f : Rose α → Rose α} (hf : ∀ t, f t = t) (p : List ℕ) (t : Rose α) :
    t.modify f p = t := by
  induction p generalizing t with
  | nil => exact hf t
  | cons i p ih =>
    have hid : modify f p = id := funext ih
    rw [modify, hid, List.modify_id, node_eta]

theorem label_modify {f : Rose α → Rose α} (hf : ∀ t, (f t).label = t.label) (p : List ℕ)
    (t : Rose α) : (t.modify f p).label = t.label := by
  cases p with
  | nil => exact hf t
  | cons i p => rfl

theorem labelAt_push {p : List ℕ} {t u : Rose α} (h : t.subtree p = some u) (a : α) (r : List ℕ) :
    (t.modify (push [leaf a]) p).labelAt r =
      if r = p ++ [u.children.length] then some a else t.labelAt r := by
  induction p generalizing t r with
  | nil =>
    obtain rfl := Option.some.inj h
    cases r with
    | nil => rfl
    | cons i r =>
      rw [labelAt_cons, labelAt_cons, modify, push, children, List.nil_append]
      rcases lt_trichotomy i t.children.length with hi | rfl | hi
      · rw [List.getElem?_append_left hi, if_neg fun he => hi.ne (List.cons.inj he).1]
      · rw [List.getElem?_append_right le_rfl, Nat.sub_self]
        simp only [List.getElem?_cons_zero, Option.bind_some, labelAt_leaf, List.cons.injEq,
          true_and]
        rw [List.getElem?_eq_none le_rfl]
        rfl
      · rw [List.getElem?_eq_none (by simp; omega), List.getElem?_eq_none hi.le,
          if_neg fun he => hi.ne' (List.cons.inj he).1]
  | cons j p ih =>
    cases r with
    | nil => rfl
    | cons i r =>
      rw [labelAt_cons, labelAt_cons, modify, children]
      rcases eq_or_ne i j with rfl | hij
      · rw [subtree] at h
        rw [List.getElem?_modify_eq]
        cases hv : t.children[i]? with
        | none => rw [hv] at h; exact absurd h (by simp)
        | some v =>
          rw [hv] at h
          simp only [List.cons_append, List.cons.injEq, true_and]
          exact ih h r
      · rw [List.getElem?_modify_ne _ _ hij.symm, List.cons_append,
          if_neg fun he => hij (List.cons.inj he).1]

theorem labelAt_relabel (f : α → α) (p : List ℕ) (t : Rose α) (r : List ℕ) :
    (t.modify (relabel f) p).labelAt r = if r = p then (t.labelAt r).map f else t.labelAt r := by
  induction p generalizing t r with
  | nil =>
    cases r with
    | nil => rfl
    | cons i r => rfl
  | cons j p ih =>
    cases r with
    | nil => rfl
    | cons i r =>
      rw [labelAt_cons, labelAt_cons, modify, children]
      rcases eq_or_ne i j with rfl | hij
      · rw [List.getElem?_modify_eq]
        cases t.children[i]? with
        | none => simp
        | some v =>
          simp only [List.cons.injEq, true_and]
          exact ih v r
      · rw [List.getElem?_modify_ne _ _ hij.symm, if_neg fun he => hij (List.cons.inj he).1]

end Rose
