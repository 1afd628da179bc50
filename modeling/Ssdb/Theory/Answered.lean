import Ssdb.Theory.Runs
import Ssdb.Theory.Steps

namespace SSDBImpl

theorem sequence_kept (n : ℕ) : Kept (fun _ => True) (fun w => n ≤ w.ldb.sequence) where
  faults _ h := h
  start h := h
  draft _ h := h
  commit h := h.trans (Nat.le_add_right _ _)
  stop h := h
  write _ h := h.trans (Nat.le_add_right _ _)

end SSDBImpl

theorem Kept.mono {S S' : Rec → Prop} {P : SSDBImpl → Prop} (hP : Kept S P)
    (hS : ∀ r, S' r → S r) : Kept S' P where
  faults := hP.faults
  start := hP.start
  draft hr := hP.draft (hS _ hr)
  commit := hP.commit
  stop := hP.stop
  write hb := hP.write fun op hop => hS _ (hb op hop)

namespace Call
open SSDBImpl

theorem exec_sequence (c : Call) (f : Faults) (w : SSDBImpl) :
    w.ldb.sequence ≤ (c.exec f w).2.ldb.sequence :=
  keeps_exec ((sequence_kept w.ldb.sequence).mono fun _ _ => trivial) f le_rfl

theorem plan_ldb {α : Type} (p : Plan α) (w : SSDBImpl) (f : Faults) :
    (p.run { w with faults := f }).2.ldb = w.ldb ∨
      (p.run { w with faults := f }).2.ldb = (p.run { w with faults := .none }).2.ldb := by
  cases p with
  | reject r => exact .inl rfl
  | abort recs r => exact .inl rfl
  | commit recs ok fail =>
    rcases eq_or_ne f.write.head? (some true) with hw | hw
    · rw [Plan.run_commit_failed { w with faults := f } recs ok fail hw]
      exact .inl rfl
    · rw [Plan.run_commit { w with faults := f } recs ok fail hw,
        Plan.run_commit { w with faults := .none } recs ok fail (by simp [Faults.none])]
      exact .inr rfl

theorem exec_plan {c : Call} (hc : c.transactional = true) {f : Faults} (hf : f.get = [])
    (w : SSDBImpl) : (c.exec f w).2.ldb =
      (((c.inquiry w.ldb).answered w.ldb.fetch).run { w with faults := f }).2.ldb := by
  have hplay := run_play hc { w with faults := f }
  rw [Inquiry.play_answered _ hf] at hplay
  exact congrArg (fun r => r.2.ldb) hplay

theorem exec_answered {c : Call} (hc : c.transactional = true) {f : Faults} (hf : f.get = [])
    (w : SSDBImpl) :
    (c.exec f w).2.ldb = w.ldb ∨ (c.exec f w).2.ldb = (c.exec .none w).2.ldb := by
  rw [exec_plan hc hf, exec_plan hc (f := .none) rfl]
  exact plan_ldb _ w f

theorem execAll_append (cs cs' : List (Call × Faults)) (w : SSDBImpl) :
    (execAll (cs ++ cs') w).2 = (execAll cs' (execAll cs w).2).2 := by
  induction cs generalizing w with
  | nil => rfl
  | cons e cs ih => exact ih _

theorem execAll_invariant {P : SSDBImpl → Prop} {allowed : Call × Faults → Prop}
    (hstep : ∀ e w, allowed e → P w → P (e.1.exec e.2 w).2) {cs : List (Call × Faults)}
    (hcs : ∀ e ∈ cs, allowed e) {w : SSDBImpl} (hw : P w) : P (execAll cs w).2 := by
  induction cs generalizing w with
  | nil => exact hw
  | cons e cs ih =>
    exact ih (fun e' h' => hcs e' (by simp [h'])) (hstep e w (hcs e (by simp)) hw)

theorem execAll_faults (cs : List (Call × Faults)) {w : SSDBImpl} (hw : w.faults = Faults.none) :
    (execAll cs w).2.faults = Faults.none := by
  induction cs generalizing w with
  | nil => exact hw
  | cons e cs ih => exact ih (exec_faults e.1 e.2 w)

theorem execAll_sequence (cs : List (Call × Faults)) (w : SSDBImpl) :
    w.ldb.sequence ≤ (execAll cs w).2.ldb.sequence := by
  induction cs generalizing w with
  | nil => exact le_rfl
  | cons e cs ih => exact (exec_sequence e.1 e.2 w).trans (ih _)

end Call
