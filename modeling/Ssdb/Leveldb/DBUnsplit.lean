import Ssdb.Leveldb.DBCompactions

theorem FileMetaData.before_of_lt {f g : FileMetaData} (hlt : f.largest < g.smallest)
    (h : ∀ e ∈ f.table.entries, ∀ e' ∈ g.table.entries, e.1.user_key ≠ e'.1.user_key) : f.Before g := by
  obtain ⟨v, hv⟩ := f.largest_mem
  obtain ⟨w, hw⟩ := g.smallest_mem
  exact lt_of_le_of_ne (InternalKey.user_key_mono hlt.le) (h _ hv _ hw)

theorem FileMetaData.keys_of_newer {f g : FileMetaData} (hfg : f.Newer g) (hgf : g.Newer f) :
    ∀ e ∈ f.table.entries, ∀ e' ∈ g.table.entries, e.1.user_key ≠ e'.1.user_key :=
  fun e he e' he' hkey => lt_asymm (hfg e he e' he' hkey) (hgf e' he' e he hkey.symm)

namespace DBImpl
variable {s : DBImpl} {t : Told} {o : DBOptions} {c : CompactionState}

structure Unsplit (s : DBImpl) : Prop where
  apart : ∀ l, 0 < l → ∀ f ∈ s.versions.current l, ∀ g ∈ s.versions.current l, f ≠ g →
    f.Before g ∨ g.Before f
  imm : ∀ imm ∈ s.imm, ∀ e ∈ imm.entries, e.1.sequence ≤ s.versions.last_sequence.toNat
  files : ∀ l, ∀ f ∈ s.versions.current l, ∀ e ∈ f.table.entries,
    e.1.sequence ≤ s.versions.last_sequence.toNat
  inputs : ∀ c is_manual, s.compacting = some (c, is_manual) → ∀ g ∈ c.compaction.inputs,
    ∀ e ∈ g.table.entries, e.1.sequence ≤ c.smallest_snapshot.toNat

theorem Unsplit.publish (hs : s.Sound) (h : s.Unsplit) : s.publish.Unsplit := by
  have hle : s.versions.last_sequence.toNat ≤ s.publish.versions.last_sequence.toNat :=
    (Nat.le_add_right _ _).trans hs.published.ge
  exact { h with
    imm := fun imm himm e he => (h.imm imm himm e he).trans hle
    files := fun l f hf e he => (h.files l f hf e he).trans hle }

theorem Unsplit.switchMemTable (hs : s.Sound) (h : s.Unsplit) : s.switchMemTable.Unsplit := by
  rw [DBImpl.switchMemTable]
  split_ifs with hfree
  · refine { h with imm := fun imm himm e he => ?_ }
    rw [← Option.some.inj himm] at he
    exact upto_last hs hfree.2 (mem_store.mpr (.inl he))
  · exact h

theorem Unsplit.compactMemTable (hs : s.Sound) (h : s.Unsplit) : (s.compactMemTable o).Unsplit := by
  rw [DBImpl.compactMemTable]
  cases himm : s.imm with
  | none => exact h
  | some imm =>
    dsimp only
    cases hout : s.level0Table o imm with
    | none =>
      have hmem (l : ℕ) (g : FileMetaData) :
          g ∈ Builder.saveTo s.versions.current VersionEdit.new l ↔ g ∈ s.versions.current l := by
        rw [((fitting_new s.versions.current).spec hs.version l).2 g]
        simp [Builder.deletedAt, VersionEdit.new]
      exact ⟨fun l hl f hf g hg => h.apart l hl f ((hmem l f).mp hf) g ((hmem l g).mp hg),
        fun imm hnone => absurd hnone (by simp), fun l f hf => h.files l f ((hmem l f).mp hf), h.inputs⟩
    | some out =>
      obtain ⟨level, f⟩ := out
      have hland := landing hs hout
      have hmem (l : ℕ) (g : FileMetaData) :
          g ∈ Builder.saveTo s.versions.current (VersionEdit.new.addFile level f) l ↔
            l = level ∧ g = f ∨ g ∈ s.versions.current l := by
        rw [((hland.fitting hs himm).spec hs.version l).2 g]
        simp [Builder.deletedAt, VersionEdit.addFile, VersionEdit.new]
      refine ⟨fun l hl g hg g' hg' hne => ?_, fun imm hnone => absurd hnone (by simp), fun l g hg => ?_, h.inputs⟩
      · rcases (hmem l g).mp hg with ⟨rfl, rfl⟩ | hold
        · rcases (hmem l g').mp hg' with ⟨-, rfl⟩ | hold'
          · exact absurd rfl hne
          · exact (hland.apart hl.ne' l le_rfl g' hold').symm
        · rcases (hmem l g').mp hg' with ⟨rfl, rfl⟩ | hold'
          · exact hland.apart hl.ne' l le_rfl g hold
          · exact h.apart l hl g hold g' hold' hne
      · rcases (hmem l g).mp hg with ⟨-, rfl⟩ | hg
        · rw [hland.table]
          exact h.imm imm himm
        · exact h.files l g hg

theorem Unsplit.whole (h : s.Unsplit) {c : Compaction}
    (hready : Compaction.Ready s.versions.current c) : Whole s.versions.current c := by
  have hne {f g : FileMetaData} {files : List FileMetaData} (hf : f.number ∉ files.map FileMetaData.number)
      (hg : g ∈ files) : f ≠ g := fun heq => hf (heq ▸ List.mem_map_of_mem hg)
  constructor
  · intro hpos f hf hnot g hg
    exact FileMetaData.newer_of_apart (h.apart c.level hpos f hf g (hready.sub0.subset hg) (hne hnot hg))
  · intro f hf hnot g hg
    exact FileMetaData.newer_of_apart
      (h.apart _ (Nat.succ_pos _) f hf g (hready.sub1.subset hg) (hne hnot hg))

theorem Unsplit.move (hs : s.Sound) (h : s.Unsplit) (hidle : s.compacting = none) {c : Compaction}
    (hready : Compaction.Ready s.versions.current c)
    (hedit : c.edit.deleted_files = [] ∧ c.edit.new_files = []) {f : FileMetaData} (h0 : c.inputs0 = [f])
    (h1 : c.inputs1 = []) {versions : VersionSet} (hlast : versions.last_sequence = s.versions.last_sequence)
    (hcurrent : versions.current = Builder.saveTo s.versions.current
      ((c.edit.deleteFile c.level f.number).addFile (c.level + 1) f)) : Unsplit { s with versions } := by
  have ha := around_start hs.version hready (h.whole hready) true (fun hno => absurd hno (by simp)) hedit
  have hfit := move_fitting hs.version ha h0 h1
  have hf : f ∈ s.versions.current c.level := ha.sub0 (h0 ▸ by simp)
  have hside (g : FileMetaData) (hg : g ∈ s.versions.current (c.level + 1)) : g.Before f ∨ f.Before g := by
    rcases hready.apart1 g hg (by simp [h1]) with hlt | hlt
    · exact .inl (hlt f (h0 ▸ by simp))
    · exact .inr (hlt f (h0 ▸ by simp))
  have hmem (l : ℕ) (g : FileMetaData) (hg : g ∈ versions.current l) :
      l = c.level + 1 ∧ g = f ∨ g ∈ s.versions.current l := by
    rw [hcurrent, (hfit.spec hs.version l).2 g, List.mem_singleton] at hg
    exact hg.imp_right And.left
  refine ⟨fun l hl g hg g' hg' hne => ?_, fun imm himm => hlast ▸ h.imm imm himm, fun l g hg => ?_,
    fun c is_manual hc => absurd (hidle.symm.trans hc) (by simp)⟩
  · rcases hmem l g hg with ⟨rfl, rfl⟩ | hg
    · rcases hmem _ g' hg' with ⟨-, rfl⟩ | hg'
      · exact absurd rfl hne
      · exact (hside g' hg').symm
    · rcases hmem l g' hg' with ⟨rfl, rfl⟩ | hg'
      · exact hside g hg
      · exact h.apart l hl g hg g' hg' hne
  · rcases hmem l g hg with ⟨-, rfl⟩ | hg
    · exact hlast ▸ h.files _ g hf
    · exact hlast ▸ h.files l g hg

theorem Unsplit.start (h : s.Unsplit) (hfree : s.snapshots = []) {c : Compaction}
    (hready : Compaction.Ready s.versions.current c) {is_manual : Bool} {versions : VersionSet}
    (hlast : versions.last_sequence = s.versions.last_sequence) (hcurrent : versions.current = s.versions.current) :
    Unsplit { s with versions, compacting := some (CompactionState.new c s.smallestSnapshot, is_manual) } := by
  have hsmallest : s.smallestSnapshot = s.versions.last_sequence := by
    rw [smallestSnapshot, hfree]
    rfl
  refine ⟨fun l hl => hcurrent ▸ h.apart l hl, fun imm himm => hlast ▸ h.imm imm himm, fun l f hf => ?_,
    fun c' is_manual' hc => ?_⟩
  · exact hlast ▸ h.files l f (hcurrent ▸ hf)
  · obtain ⟨rfl, rfl⟩ := Prod.mk.inj (Option.some.inj hc)
    intro g hg
    change ∀ e ∈ g.table.entries, e.1.sequence ≤ s.smallestSnapshot.toNat
    rw [hsmallest]
    rcases List.mem_append.mp hg with hg | hg
    · exact h.files _ g (hready.sub0.subset hg)
    · exact h.files _ g (hready.sub1.subset hg)

theorem Unsplit.backgroundCompaction (hs : s.Sound) (h : s.Unsplit) (hfree : s.snapshots = [])
    (trigger : Trigger) : (s.backgroundCompaction o trigger).Unsplit := by
  rw [DBImpl.backgroundCompaction]
  by_cases hbusy : s.compacting.isSome = true
  · rw [if_pos hbusy]
    exact h
  · have hidle : s.compacting = none := by simpa using hbusy
    rw [if_neg hbusy]
    by_cases himm : s.imm.isSome = true
    · rw [if_pos himm]
      exact h.compactMemTable hs
    · rw [if_neg himm]
      cases hpick : s.versions.pickCompaction o trigger with
      | none => exact h
      | some picked =>
        obtain ⟨c, versions⟩ := picked
        obtain ⟨hready, hdeleted, hnew, hcurrent, -, hlast, -⟩ := VersionSet.pickCompaction_spec hpick
        dsimp only
        by_cases hmove : trigger.automatic ∧ isTrivialMove o c
        · rw [if_pos hmove]
          obtain ⟨hone, hnone, -⟩ : c.inputs0.length = 1 ∧ c.inputs1.length = 0 ∧ _ := by
            simpa [isTrivialMove] using hmove.2
          obtain ⟨f, h0⟩ := List.length_eq_one_iff.mp hone
          have h1 := List.length_eq_zero_iff.mp hnone
          rw [h0, List.foldl_cons, List.foldl_nil]
          refine h.move hs hidle hready ⟨hdeleted, hnew⟩ h0 h1 hlast ?_
          rw [VersionSet.logAndApply, hcurrent]
        · rw [if_neg hmove]
          exact h.start hfree hready hlast hcurrent

theorem turn_same (n : ℕ) {done : List (InternalKey × Bytes)} (hswept : CompactionState.Swept c done)
    (hmax : c.smallest_snapshot < kMaxSequence) (hv : c.compaction.input_version.Sound) :
    (c.turn o n).1.compaction = c.compaction ∧ (c.turn o n).1.smallest_snapshot = c.smallest_snapshot := by
  cases hinput : c.input with
  | nil =>
    rw [CompactionState.turn, hinput]
    exact ⟨rfl, rfl⟩
  | cons e input =>
    have hturned := CompactionState.turn_spec o n hswept hinput hmax hv.sorted
    exact ⟨hturned.compaction, hturned.smallest_snapshot⟩

theorem Unsplit.turn (hs : s.Sound) (h : s.Unsplit) : (s.turn o).Unsplit := by
  rw [DBImpl.turn]
  cases hwork : s.compacting with
  | none => exact h
  | some work =>
    obtain ⟨c, is_manual⟩ := work
    have hw := hs.working c is_manual hwork
    obtain ⟨done, hswept, -⟩ := hw.swept
    have hlast := UInt64.lt_iff_toNat_lt.mp hs.last_lt
    have hmax : c.smallest_snapshot < kMaxSequence :=
      UInt64.lt_iff_toNat_lt.mpr (hw.smallest.trans_lt hlast)
    obtain ⟨hcompaction, hsnapshot⟩ :=
      turn_same (o := o) s.versions.next_file_number hswept hmax hw.around.input_version
    refine { h with inputs := fun c' is_manual' hc => ?_ }
    obtain ⟨rfl, rfl⟩ := Prod.mk.inj (Option.some.inj hc)
    rw [hcompaction, hsnapshot]
    exact h.inputs c is_manual hwork

theorem Unsplit.replaced (hs : s.Sound) (h : s.Unsplit) {is_manual : Bool}
    {done : List (InternalKey × Bytes)} (hdone : Done s c is_manual done)
    (hold : ∀ g ∈ c.compaction.inputs, ∀ e ∈ g.table.entries, e.1.sequence ≤ c.smallest_snapshot.toNat) :
    Unsplit { s with versions := s.versions.logAndApply (results c), compacting := none } := by
  have ha := hdone.working.around
  have hkept {f : FileMetaData} (hf : f ∈ c.outputs) {e : InternalKey × Bytes} (he : e ∈ f.table.entries) :
      e ∈ c.kept := by
    rw [hdone.kept]
    exact List.mem_flatMap.mpr ⟨f, hf, he⟩
  have hone {e e' : InternalKey × Bytes} (he : e ∈ c.kept) (he' : e' ∈ c.kept)
      (hkey : e.1.user_key = e'.1.user_key) : e.1 ≤ e'.1 := by
    have hin := hdone.swept.sub.subset he'
    obtain ⟨g, hg, hing⟩ := (hdone.merged e').mp hin
    exact hdone.swept.shadowed e' hin (hold g hg e' hing) e he hkey
  have hout {f g : FileMetaData} (hf : f ∈ c.outputs) (hg : g ∈ c.outputs) (hlt : f.largest < g.smallest) :
      f.Before g := by
    refine FileMetaData.before_of_lt hlt fun e he e' he' hkey => ?_
    have hsame : e.1 = e'.1 :=
      le_antisymm (hone (hkept hf he) (hkept hg he') hkey) (hone (hkept hg he') (hkept hf he) hkey.symm)
    have hle := ((FileMetaData.le_largest he).trans_lt hlt).trans_le (FileMetaData.smallest_le he')
    exact absurd hle (hsame ▸ lt_irrefl _)
  have hstay {f g : FileMetaData} (hf : f ∈ c.outputs) (hg : g ∈ s.versions.current (c.compaction.level + 1))
      (hnot : g ∉ c.compaction.inputs0 ∧ g ∉ c.compaction.inputs1) : g.Before f ∨ f.Before g := by
    have hkeys (e : InternalKey × Bytes) (he : e ∈ g.table.entries) (e' : InternalKey × Bytes)
        (he' : e' ∈ f.table.entries) : e.1.user_key ≠ e'.1.user_key := by
      obtain ⟨-, input, hinput, hin⟩ := hdone.from_input hf he'
      refine FileMetaData.keys_of_newer (ha.beside g hg hnot.2 input hinput) ?_ e he e' hin
      rcases List.mem_append.mp hinput with hinput | hinput
      · exact hs.version.levels _ _ (Nat.lt_succ_self _) input (ha.sub0 hinput) g hg
      · refine FileMetaData.newer_of_apart (h.apart _ (Nat.succ_pos _) input (ha.sub1 hinput) g hg ?_)
        exact fun heq => hnot.2 (heq ▸ hinput)
    have hfit := hdone.fitting hs
    rcases hfit.beside (Nat.succ_pos _) f hf g hg ((hdone.deleted_iff hs hg).mpr hnot) with hlt | hlt
    · exact .inr (FileMetaData.before_of_lt hlt fun e he e' he' hkey => hkeys e' he' e he hkey.symm)
    · exact .inl (FileMetaData.before_of_lt hlt hkeys)
  refine ⟨fun l hl f hf g hg hne => ?_, h.imm, fun l f hf e he => ?_,
    fun c' is_manual' hc => absurd hc (by simp)⟩
  · rcases (hdone.mem_files hs).mp hf with ⟨rfl, hnewf⟩ | ⟨holdf, hnotf⟩
    · rcases (hdone.mem_files hs).mp hg with ⟨-, hnewg⟩ | ⟨holdg, hnotg⟩
      · rcases Version.pairwise_apart hdone.sorted hnewf hnewg hne with hlt | hlt
        · exact .inl (hout hnewf hnewg hlt)
        · exact .inr (hout hnewg hnewf hlt)
      · exact (hstay hnewf holdg hnotg).symm
    · rcases (hdone.mem_files hs).mp hg with ⟨rfl, hnewg⟩ | ⟨holdg, hnotg⟩
      · exact hstay hnewg holdf hnotf
      · exact h.apart l hl f holdf g holdg hne
  · rcases (hdone.mem_files hs).mp hf with ⟨-, hf⟩ | ⟨hf, -⟩
    · obtain ⟨-, input, hinput, hin⟩ := hdone.from_input hf he
      obtain ⟨l', -, -, hinput'⟩ := hdone.input_in_version hinput
      exact h.files l' input hinput' e hin
    · exact h.files l f hf e he

theorem Unsplit.install (hs : s.Sound) (h : s.Unsplit) : (s.install o).Unsplit := by
  rw [DBImpl.install]
  cases hwork : s.compacting with
  | none => exact h
  | some work =>
    obtain ⟨c, is_manual⟩ := work
    dsimp only
    split_ifs with hinput
    · obtain ⟨done, hdone⟩ := finish_done (o := o) (hs.working c is_manual hwork) hinput
      have halike := CompactionState.finish_alike o c
      refine h.replaced hs hdone ?_
      rw [halike.compaction, halike.smallest_snapshot]
      exact h.inputs c is_manual hwork
    · exact h

/-- What a step relies on where compactions are picked only while no snapshot is held. -/
def Unheld (o : DBOptions) : Event → DBImpl → Prop
  | .insert groups, s =>
    WriteBatch.Fits groups ∧ s.versions.last_sequence.toNat + groups.flatten.length < 2 ^ 56 - 1
  | .compactMemTable, s => Clear o s
  | .backgroundCompaction _, s => s.snapshots = []
  | _, _ => True

instance decidableUnheld (o : DBOptions) : ∀ (e : Event) (s : DBImpl), Decidable (Unheld o e s)
  | .insert groups, s => inferInstanceAs (Decidable
      (WriteBatch.Fits groups ∧ s.versions.last_sequence.toNat + groups.flatten.length < 2 ^ 56 - 1))
  | .compactMemTable, s => inferInstanceAs (Decidable (Clear o s))
  | .backgroundCompaction _, s => inferInstanceAs (Decidable (s.snapshots = []))
  | .publish, _ => .isTrue trivial
  | .switchMemTable, _ => .isTrue trivial
  | .getSnapshot, _ => .isTrue trivial
  | .releaseSnapshot _, _ => .isTrue trivial
  | .turn, _ => .isTrue trivial
  | .install, _ => .isTrue trivial

theorem Unsplit.careful (h : s.Unsplit) {e : Event} (hheld : Unheld o e s) : Careful o e s := by
  cases e with
  | insert groups => exact hheld
  | compactMemTable => exact hheld
  | backgroundCompaction trigger =>
    exact fun picked hpick => h.whole (VersionSet.pickCompaction_spec hpick).1
  | publish => trivial
  | switchMemTable => trivial
  | getSnapshot => trivial
  | releaseSnapshot number => trivial
  | turn => trivial
  | install => trivial

theorem step_unsplit (hs : s.Sound) (h : s.Unsplit) {e : Event} (hheld : Unheld o e s) :
    (step o e s).Unsplit := by
  cases e with
  | insert groups =>
    rw [step, DBImpl.insert]
    split_ifs
    · exact { h with }
    · exact h
  | publish => exact h.publish hs
  | switchMemTable => exact h.switchMemTable hs
  | compactMemTable => exact h.compactMemTable hs
  | getSnapshot => exact { h with }
  | releaseSnapshot number => exact { h with }
  | backgroundCompaction trigger => exact h.backgroundCompaction hs hheld trigger
  | turn => exact h.turn hs
  | install => exact h.install hs

theorem open_unsplit (next_file_number : ℕ) : (open_ next_file_number).Unsplit :=
  ⟨fun l _ f hf => absurd hf (by simp [open_]), fun imm himm => absurd himm (by simp [open_]),
    fun l f hf => absurd hf (by simp [open_]), fun c is_manual hc => absurd hc (by simp [open_])⟩

theorem run_unsplit (es : List Event) (hs : s.Sound) (hshows : s.Shows t) (h : s.Unsplit)
    (hheld : Trace.Along (step o) (Unheld o) es s) :
    (Trace.run (step o) es s).Sound ∧ (Trace.run (step o) es s).Shows (Trace.run Told.step es t) ∧
      (Trace.run (step o) es s).Unsplit := by
  induction es generalizing s t with
  | nil => exact ⟨hs, hshows, h⟩
  | cons e es ih =>
    obtain ⟨hsound, hshown⟩ := step_shows hs hshows (h.careful hheld.1)
    exact ih hsound hshown (step_unsplit hs h hheld.1) hheld.2

/-- Where compactions are picked only while no snapshot is held, no key is in two files of a level
below the first, and reads are right without more. -/
theorem unsplit_reads (o : DBOptions) (next_file_number : ℕ) (es : List Event)
    (h : Trace.Along (step o) (Unheld o) es (open_ next_file_number)) :
    let s := Trace.run (step o) es (open_ next_file_number)
    let t := Trace.run Told.step es Told.start
    (∀ l, 0 < l → ∀ f ∈ s.versions.current l, ∀ g ∈ s.versions.current l, f ≠ g →
        f.largest.user_key < g.smallest.user_key ∨ g.largest.user_key < f.smallest.user_key) ∧
      ∀ k : Bytes, k.length + 8 < 2 ^ 32 →
        s.get none k = .ok (t.current.get k) ∧ ∀ p ∈ t.held, s.get (some p.1) k = .ok (p.2.get k) := by
  obtain ⟨hopen, hstart⟩ := open_sound next_file_number
  obtain ⟨hsound, hshows, hunsplit⟩ := run_unsplit es hopen hstart (open_unsplit next_file_number) h
  exact ⟨hunsplit.apart, fun k hk => ⟨hsound.get_current hk hshows, hsound.get_held hk hshows⟩⟩

def calm : List Event :=
  [.insert [[.put [1] [1], .put [2] [1]]], .publish, .switchMemTable, .compactMemTable, .insert [[.put [1] [2]]],
    .publish, .switchMemTable, .compactMemTable, .insert [[.put [3] [1]], [.delete [2]]], .publish,
    .switchMemTable, .compactMemTable, .backgroundCompaction (.manual 1 none none), .turn, .getSnapshot, .turn,
    .insert [[.put [3] [2]]], .turn, .publish, .turn, .turn, .install]

theorem unsplit_reads_calm :
    Trace.Along (step tight) (Unheld tight) calm (open_ 2) ∧
      (∀ l, 0 < l → ∀ f ∈ (Trace.run (step tight) calm (open_ 2)).versions.current l,
          ∀ g ∈ (Trace.run (step tight) calm (open_ 2)).versions.current l, f ≠ g →
            f.largest.user_key < g.smallest.user_key ∨ g.largest.user_key < f.smallest.user_key) ∧
        (Trace.run (step tight) calm (open_ 2)).get none [1] =
            .ok ((Trace.run Told.step calm Told.start).current.get [1]) ∧
          ∀ p ∈ (Trace.run Told.step calm Told.start).held,
            (Trace.run (step tight) calm (open_ 2)).get (some p.1) [1] = .ok (p.2.get [1]) :=
  have h : Trace.Along (step tight) (Unheld tight) calm (open_ 2) := by decide +kernel
  have hreads := unsplit_reads tight 2 calm h
  ⟨h, hreads.1, hreads.2 [1] (by decide)⟩

end DBImpl
