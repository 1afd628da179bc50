import Ssdb.Library.Inquiry
import Ssdb.Store.Plan

namespace SSDBImpl

def left (w : SSDBImpl) (g : List Bool) : SSDBImpl := { w with faults := { w.faults with get := g } }

def outcome {α : Type} (w : SSDBImpl) (T : Inquiry Bytes Fetched α) : α × List Bool :=
  T.resolve w.ldb.fetch .failed w.faults.get

@[simp] theorem left_ldb (w : SSDBImpl) (g : List Bool) : (w.left g).ldb = w.ldb := rfl

@[simp] theorem left_binlogs (w : SSDBImpl) (g : List Bool) : (w.left g).binlogs = w.binlogs := rfl

@[simp] theorem left_faults (w : SSDBImpl) (g : List Bool) :
    (w.left g).faults = ⟨g, w.faults.write⟩ := rfl

end SSDBImpl

namespace Inquiry

variable {α β : Type}

def play : Inquiry Bytes Fetched (Plan α) → M α
  | done p => p.run
  | ask key next => do (next (← LevelDB.Get key)).play

theorem play_apply (T : Inquiry Bytes Fetched (Plan α)) (w : SSDBImpl) :
    T.play w = (w.outcome T).1.run (w.left (w.outcome T).2) := by
  induction T generalizing w with
  | done p => rfl
  | ask key next ih => exact ih _ _

theorem play_answered (T : Inquiry Bytes Fetched (Plan α)) {w : SSDBImpl}
    (h : w.faults.get = []) : T.play w = (T.answered w.ldb.fetch).run w := by
  have hout : w.outcome T = (T.answered w.ldb.fetch, []) := by
    rw [SSDBImpl.outcome, h]
    exact resolve_nil T
  have hleft : w.left [] = w := by rw [← h]; rfl
  rw [play_apply, hout, hleft]

theorem play_map (f : α → β) (T : Inquiry Bytes Fetched (Plan α)) :
    (T.map (Plan.map f)).play = f <$> T.play := by
  funext w
  have hmap : w.outcome (T.map (Plan.map f)) = ((w.outcome T).1.map f, (w.outcome T).2) :=
    resolve_map T (Plan.map f) w.faults.get
  rw [play_apply, hmap, M.map_apply, play_apply, Plan.run_map]

end Inquiry

def Drafts {α : Type} (recs : List Rec) (x : M α) (T : Inquiry Bytes Fetched (α × List Rec)) :
    Prop :=
  ∀ w : SSDBImpl, x (w.record recs) =
    ((w.outcome T).1.1, (w.left (w.outcome T).2).record (w.outcome T).1.2)

def Ends {α : Type} (recs : List Rec) (x : M α) (T : Inquiry Bytes Fetched (Plan α)) : Prop :=
  ∀ w : SSDBImpl, x (w.record recs) = (w.outcome T).1.body (w.left (w.outcome T).2)

namespace Drafts

variable {α β : Type} {recs : List Rec} {key value : Bytes}

theorem pure (a : α) : Drafts recs (pure a) (.done (a, recs)) := fun _ => rfl

theorem get {f : Fetched → M β} {S : Fetched → Inquiry Bytes Fetched (β × List Rec)}
    (h : ∀ r, Drafts recs (f r) (S r)) : Drafts recs (LevelDB.Get key >>= f) (.ask key S) :=
  fun w => h _ (w.left w.faults.get.tail)

theorem put {x : M β} {T : Inquiry Bytes Fetched (β × List Rec)}
    (h : Drafts (recs ++ [.put key value]) x T) :
    Drafts recs (Binlogs.Put key value >>= fun _ => x) T := by
  intro w
  rw [M.bind_apply, Binlogs.Put_apply, SSDBImpl.record_record]
  exact h w

theorem delete {x : M β} {T : Inquiry Bytes Fetched (β × List Rec)}
    (h : Drafts (recs ++ [.delete key]) x T) :
    Drafts recs (Binlogs.Delete key >>= fun _ => x) T := by
  intro w
  rw [M.bind_apply, Binlogs.Delete_apply, SSDBImpl.record_record]
  exact h w

theorem log {type cmd : Byte} {x : M β} {T : Inquiry Bytes Fetched (β × List Rec)}
    (h : Drafts (recs ++ [.log type cmd key]) x T) :
    Drafts recs (Binlogs.addLog type cmd key >>= fun _ => x) T := by
  intro w
  rw [M.bind_apply, Binlogs.addLog_apply, SSDBImpl.record_record]
  exact h w

theorem ite {c : Prop} [Decidable c] {x y : M α} {T U : Inquiry Bytes Fetched (α × List Rec)}
    (hx : c → Drafts recs x T) (hy : ¬c → Drafts recs y U) :
    Drafts recs (if c then x else y) (if c then T else U) := by
  split_ifs with h
  · exact hx h
  · exact hy h

end Drafts

namespace Ends

variable {α β : Type} {recs : List Rec} {key value : Bytes}

theorem pure (a : α) : Ends recs (pure a) (.done (.abort recs a)) := fun _ => rfl

theorem commit (ok fail : α) :
    Ends recs (do if ← Binlogs.commit then return ok else return fail)
      (.done (.commit recs ok fail)) := by
  intro w
  simp only [M.bind_apply, M.ite_apply, M.pure_apply, SSDBImpl.outcome, Inquiry.resolve, Plan.body]
  rfl

theorem get {f : Fetched → M β} {S : Fetched → Inquiry Bytes Fetched (Plan β)}
    (h : ∀ r, Ends recs (f r) (S r)) : Ends recs (LevelDB.Get key >>= f) (.ask key S) :=
  fun w => h _ (w.left w.faults.get.tail)

theorem put {x : M β} {T : Inquiry Bytes Fetched (Plan β)}
    (h : Ends (recs ++ [.put key value]) x T) :
    Ends recs (Binlogs.Put key value >>= fun _ => x) T := by
  intro w
  rw [M.bind_apply, Binlogs.Put_apply, SSDBImpl.record_record]
  exact h w

theorem delete {x : M β} {T : Inquiry Bytes Fetched (Plan β)}
    (h : Ends (recs ++ [.delete key]) x T) :
    Ends recs (Binlogs.Delete key >>= fun _ => x) T := by
  intro w
  rw [M.bind_apply, Binlogs.Delete_apply, SSDBImpl.record_record]
  exact h w

theorem log {type cmd : Byte} {x : M β} {T : Inquiry Bytes Fetched (Plan β)}
    (h : Ends (recs ++ [.log type cmd key]) x T) :
    Ends recs (Binlogs.addLog type cmd key >>= fun _ => x) T := by
  intro w
  rw [M.bind_apply, Binlogs.addLog_apply, SSDBImpl.record_record]
  exact h w

theorem log_ite {c : Prop} [Decidable c] {type cmd cmd' : Byte} {x : M β}
    {T : Inquiry Bytes Fetched (Plan β)}
    (h : Ends (recs ++ [.log type (if c then cmd else cmd') key]) x T) :
    Ends recs (if c then Binlogs.addLog type cmd key >>= fun _ => x
      else Binlogs.addLog type cmd' key >>= fun _ => x) T := by
  split_ifs at h ⊢
  · exact log h
  · exact log h

theorem ite {c : Prop} [Decidable c] {x y : M α} {T U : Inquiry Bytes Fetched (Plan α)}
    (hx : c → Ends recs x T) (hy : ¬c → Ends recs y U) :
    Ends recs (if c then x else y) (if c then T else U) := by
  split_ifs with h
  · exact hx h
  · exact hy h

theorem bind {x : M α} {f : α → M β} {T : Inquiry Bytes Fetched (α × List Rec)}
    {S : α × List Rec → Inquiry Bytes Fetched (Plan β)} (hx : Drafts recs x T)
    (hf : ∀ r, Ends r.2 (f r.1) (S r)) : Ends recs (x >>= f) (T.bind S) := by
  intro w
  have hbind : w.outcome (T.bind S) = (w.left (w.outcome T).2).outcome (S (w.outcome T).1) :=
    Inquiry.resolve_bind T S w.faults.get
  rw [M.bind_apply, hx w, hbind]
  exact hf _ _

theorem step {x : M α} {f : α → M β} {a : α} {recs' : List Rec}
    {T : Inquiry Bytes Fetched (Plan β)}
    (hx : ∀ w : SSDBImpl, x (w.record recs) = (a, w.record recs')) (hf : Ends recs' (f a) T) :
    Ends recs (x >>= f) T := by
  intro w
  rw [M.bind_apply, hx w]
  exact hf w

theorem map (f : α → β) {x : M α} {T : Inquiry Bytes Fetched (Plan α)} (h : Ends recs x T) :
    Ends recs (f <$> x) (T.map (Plan.map f)) := by
  intro w
  have hmap : w.outcome (T.map (Plan.map f)) = ((w.outcome T).1.map f, (w.outcome T).2) :=
    Inquiry.resolve_map T (Plan.map f) w.faults.get
  rw [M.map_apply, h w, hmap, Plan.body_map]

theorem transaction {x : M α} {T : Inquiry Bytes Fetched (Plan α)} (h : Ends [] x T)
    (hT : T.Every Plan.Opened) : Binlogs.transaction x = T.play := by
  funext w
  have hbody := h w.opened
  have hopened : (w.outcome T).1.Opened := Inquiry.resolve_every hT w.faults.get
  rw [Inquiry.play_apply]
  have hrun := Plan.transaction_run (w.left (w.outcome T).2) (x := (w.outcome T).1.body) hopened rfl
  rw [← hrun]
  simp only [SSDBImpl.record_nil] at hbody
  simp only [Binlogs.transaction]
  have hw : x { w with binlogs := w.binlogs.begin } =
      (w.outcome T).1.body (SSDBImpl.left { w with binlogs := w.binlogs.begin } (w.outcome T).2) := hbody
  rw [hw]
  rfl

end Ends
