import Ssdb.Api.Calls

namespace Call

def after (cs : List Call) (w : SSDBImpl) : SSDBImpl :=
  (execAll (cs.map (fun c => (c, Faults.none))) w).2

theorem after_invariant {P : SSDBImpl → Prop} {allowed : Call → Prop}
    (hstep : ∀ c w, allowed c → P w → P (c.exec .none w).2) {cs : List Call}
    (hcs : ∀ c ∈ cs, allowed c) {w : SSDBImpl} (hw : P w) : P (after cs w) := by
  induction cs generalizing w with
  | nil => exact hw
  | cons c cs ih =>
    exact ih (fun c' h' => hcs c' (by simp [h'])) (hstep c w (hcs c (by simp)) hw)

theorem exec_faults (c : Call) (f : Faults) (w : SSDBImpl) :
    (c.exec f w).2.faults = Faults.none := rfl

theorem after_faults (cs : List Call) {w : SSDBImpl} (hw : w.faults = Faults.none) :
    (after cs w).faults = Faults.none := by
  induction cs generalizing w with
  | nil => exact hw
  | cons c cs ih => exact ih (exec_faults c .none w)

end Call
