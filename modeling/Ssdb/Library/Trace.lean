import Mathlib.Tactic

namespace Trace
variable {S E O : Type} (step : E → S → S)

def run (es : List E) (s : S) : S := es.foldl (fun s e => step e s) s

def Along (P : E → S → Prop) : List E → S → Prop
  | [], _ => True
  | e :: es, s => P e s ∧ Along P es (step e s)

instance decidableAlong (P : E → S → Prop) [∀ e s, Decidable (P e s)] :
    ∀ (es : List E) (s : S), Decidable (Along step P es s)
  | [], _ => .isTrue trivial
  | e :: es, s =>
    letI := decidableAlong P es (step e s)
    inferInstanceAs (Decidable (P e s ∧ Along step P es (step e s)))

def outputs (out : E → S → List O) : List E → S → List O
  | [], _ => []
  | e :: es, s => out e s ++ outputs out es (step e s)

variable {step} {P Q I : E → S → Prop} {s : S}

@[simp] theorem run_nil : run step [] s = s := rfl

@[simp] theorem run_cons (e : E) (es : List E) : run step (e :: es) s = run step es (step e s) := rfl

@[simp] theorem run_append (es fs : List E) : run step (es ++ fs) s = run step fs (run step es s) :=
  List.foldl_append

@[simp] theorem outputs_append (out : E → S → List O) (es fs : List E) :
    outputs step out (es ++ fs) s = outputs step out es s ++ outputs step out fs (run step es s) := by
  induction es generalizing s with
  | nil => rfl
  | cons e es ih => rw [List.cons_append, outputs, ih, outputs, run_cons, List.append_assoc]

theorem Along.and {es : List E} (hP : Along step P es s) (hQ : Along step Q es s) :
    Along step (fun e s => P e s ∧ Q e s) es s := by
  induction es generalizing s with
  | nil => trivial
  | cons e es ih => exact ⟨⟨hP.1, hQ.1⟩, ih hP.2 hQ.2⟩

theorem along_of_forall {es : List E} {R : E → Prop} (h : ∀ e ∈ es, R e) :
    Along step (fun e _ => R e) es s := by
  induction es generalizing s with
  | nil => trivial
  | cons e es ih => exact ⟨h e (by simp), ih fun e' h' => h e' (by simp [h'])⟩

theorem Along.invariant {J : S → Prop} {es : List E} (h : Along step P es s)
    (hstep : ∀ e s, P e s → J s → J (step e s)) (hs : J s) : J (run step es s) := by
  induction es generalizing s with
  | nil => exact hs
  | cons e es ih => exact ih h.2 (hstep e s h.1 hs)

theorem Along.simulation {S' : Type} {step' : E → S' → S'} {R : S → S' → Prop} {es : List E} {s' : S'}
    (h : Along step P es s) (hstep : ∀ e s s', P e s → R s s' → R (step e s) (step' e s'))
    (hs : R s s') : R (run step es s) (run step' es s') := by
  induction es generalizing s s' with
  | nil => exact hs
  | cons e es ih => exact ih h.2 (hstep e s s' h.1 hs)

theorem Along.under {J : S → Prop} {es : List E} (h : Along step P es s) (hs : J s)
    (hstep : ∀ e s, P e s → J s → Q e s ∧ J (step e s)) : Along step Q es s := by
  induction es generalizing s with
  | nil => trivial
  | cons e es ih => exact ⟨(hstep e s h.1 hs).1, ih h.2 (hstep e s h.1 hs).2⟩

theorem along_congr {J : S → Prop} {es : List E} (hI : Along step I es s) (hs : J s)
    (hiff : ∀ e s, I e s → J s → (P e s ↔ Q e s))
    (hstep : ∀ e s, I e s → J s → Q e s → J (step e s)) :
    Along step P es s ↔ Along step Q es s := by
  induction es generalizing s with
  | nil => exact Iff.rfl
  | cons e es ih =>
    have hfirst := hiff e s hI.1 hs
    constructor
    · rintro ⟨hP, hrest⟩
      have hQ := hfirst.mp hP
      exact ⟨hQ, (ih hI.2 (hstep e s hI.1 hs hQ)).mp hrest⟩
    · rintro ⟨hQ, hrest⟩
      exact ⟨hfirst.mpr hQ, (ih hI.2 (hstep e s hI.1 hs hQ)).mpr hrest⟩

theorem along_iff_states {K J : S → Prop} {es : List E} (hI : Along step I es s) (hK : K s) (hJ : J s)
    (hkeep : ∀ e s, I e s → K s → K (step e s))
    (hiff : ∀ e s, I e s → K s → J s → (J (step e s) ↔ P e s)) :
    (∀ cs, cs <+: es → J (run step cs s)) ↔ Along step P es s := by
  induction es generalizing s with
  | nil =>
    refine ⟨fun _ => trivial, fun _ cs hcs => ?_⟩
    rw [List.prefix_nil.mp hcs]
    exact hJ
  | cons e es ih =>
    have hfirst := hiff e s hI.1 hK hJ
    have hrest (hnext : J (step e s)) := ih hI.2 (hkeep e s hI.1 hK) hnext
    constructor
    · intro h
      have hnext := h [e] ⟨es, rfl⟩
      refine ⟨hfirst.mp hnext, (hrest hnext).mp fun cs hcs => h (e :: cs) ?_⟩
      exact List.cons_prefix_cons.mpr ⟨rfl, hcs⟩
    · rintro ⟨hP, hmeets⟩ cs hcs
      cases cs with
      | nil => exact hJ
      | cons e' cs =>
        obtain ⟨rfl, hprefix⟩ := List.cons_prefix_cons.mp hcs
        exact (hrest (hfirst.mpr hP)).mpr hmeets cs hprefix

theorem along_le (f : S → ℕ) {b : ℕ} (hmono : ∀ e s, f s ≤ f (step e s)) (es : List E)
    (h : f (run step es s) ≤ b) : f s ≤ b ∧ Along step (fun e s => f (step e s) ≤ b) es s := by
  induction es generalizing s with
  | nil => exact ⟨h, trivial⟩
  | cons e es ih =>
    obtain ⟨hnext, hrest⟩ := ih h
    exact ⟨(hmono e s).trans hnext, hnext, hrest⟩

theorem outputs_increasing [LinearOrder O] {out : E → S → List O} (mark : S → O) {J : S → Prop}
    {es : List E} (h : Along step P es s) (hs : J s)
    (hstep : ∀ e s, P e s → J s → J (step e s) ∧ mark s ≤ mark (step e s) ∧
      (out e s).Pairwise (· < ·) ∧ ∀ x ∈ out e s, mark s < x ∧ x ≤ mark (step e s)) :
    (outputs step out es s).Pairwise (· < ·) ∧ mark s ≤ mark (run step es s) ∧
      ∀ x ∈ outputs step out es s, mark s < x ∧ x ≤ mark (run step es s) := by
  induction es generalizing s with
  | nil => exact ⟨.nil, le_rfl, fun x hx => absurd hx List.not_mem_nil⟩
  | cons e es ih =>
    obtain ⟨hJ, hmark, hsorted, hfirst⟩ := hstep e s h.1 hs
    obtain ⟨hrest, hlater, hmem⟩ := ih h.2 hJ
    refine ⟨?_, hmark.trans hlater, fun x hx => ?_⟩
    · refine List.pairwise_append.mpr ⟨hsorted, hrest, fun x hx y hy => ?_⟩
      exact (hfirst x hx).2.trans_lt (hmem y hy).1
    · rcases List.mem_append.mp hx with hx | hx
      · exact ⟨(hfirst x hx).1, (hfirst x hx).2.trans hlater⟩
      · exact ⟨hmark.trans_lt (hmem x hx).1, (hmem x hx).2⟩

theorem mark_outputs {out : E → S → List O} (mark : S → O) {J : S → Prop} {es : List E}
    (h : Along step P es s) (hs : J s) (hstep : ∀ e s, P e s → J s →
      J (step e s) ∧ (mark (step e s) = mark s ∨ mark (step e s) ∈ out e s)) :
    mark (run step es s) = mark s ∨ mark (run step es s) ∈ outputs step out es s := by
  induction es generalizing s with
  | nil => exact .inl rfl
  | cons e es ih =>
    obtain ⟨hJ, hfirst⟩ := hstep e s h.1 hs
    rw [run_cons, outputs, List.mem_append]
    rcases ih h.2 hJ with hrest | hrest
    · rw [hrest]
      exact hfirst.imp id .inl
    · exact .inr (.inr hrest)

end Trace
