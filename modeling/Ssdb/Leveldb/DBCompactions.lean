import Ssdb.Leveldb.DBRuns

namespace Builder
variable {edit : VersionEdit} {level l : ℕ}

theorem deleteFiles_spec (files : List FileMetaData) (edit : VersionEdit) (level l : ℕ) :
    deletedAt (files.foldl (fun edit f => edit.deleteFile level f.number) edit) l =
        deletedAt edit l ++ (if l = level then files.map FileMetaData.number else []) ∧
      newAt (files.foldl (fun edit f => edit.deleteFile level f.number) edit) l = newAt edit l := by
  induction files generalizing edit with
  | nil => simp
  | cons f files ih =>
    obtain ⟨hdeleted, hnew⟩ := ih (edit.deleteFile level f.number)
    rw [List.foldl_cons, hdeleted, hnew]
    refine ⟨?_, rfl⟩
    by_cases hl : l = level
    · simp [deletedAt, VersionEdit.deleteFile, hl]
    · simp [deletedAt, VersionEdit.deleteFile, hl, Ne.symm hl]

theorem addFiles_spec (files : List FileMetaData) (edit : VersionEdit) (level l : ℕ) :
    newAt (files.foldl (fun edit f => edit.addFile level f) edit) l =
        newAt edit l ++ (if l = level then files else []) ∧
      deletedAt (files.foldl (fun edit f => edit.addFile level f) edit) l = deletedAt edit l := by
  induction files generalizing edit with
  | nil => simp
  | cons f files ih =>
    obtain ⟨hnew, hdeleted⟩ := ih (edit.addFile level f)
    rw [List.foldl_cons, hnew, hdeleted]
    refine ⟨?_, rfl⟩
    by_cases hl : l = level
    · simp [newAt, VersionEdit.addFile, hl]
    · simp [newAt, VersionEdit.addFile, hl, Ne.symm hl]

end Builder

namespace DBImpl
variable {s : DBImpl} {t : Told} {o : DBOptions} {c : CompactionState}

theorem results_spec (hedit : c.compaction.edit.deleted_files = [] ∧ c.compaction.edit.new_files = []) (l : ℕ) :
    Builder.newAt (results c) l = (if l = c.compaction.level + 1 then c.outputs else []) ∧
      Builder.deletedAt (results c) l =
        (if l = c.compaction.level then c.compaction.inputs0.map FileMetaData.number else []) ++
          if l = c.compaction.level + 1 then c.compaction.inputs1.map FileMetaData.number else [] := by
  have hnone : Builder.newAt c.compaction.edit l = [] ∧ Builder.deletedAt c.compaction.edit l = [] := by
    simp [Builder.newAt, Builder.deletedAt, hedit.1, hedit.2]
  rw [results]
  obtain ⟨hnew, hdeleted⟩ := Builder.addFiles_spec c.outputs
    (c.compaction.inputs1.foldl (fun edit f => edit.deleteFile (c.compaction.level + 1) f.number)
      (c.compaction.inputs0.foldl (fun edit f => edit.deleteFile c.compaction.level f.number) c.compaction.edit))
    (c.compaction.level + 1) l
  rw [hnew, hdeleted, (Builder.deleteFiles_spec _ _ _ _).1, (Builder.deleteFiles_spec _ _ _ _).1,
    (Builder.deleteFiles_spec _ _ _ _).2, (Builder.deleteFiles_spec _ _ _ _).2, hnone.1, hnone.2]
  exact ⟨rfl, rfl⟩

theorem not_deleted {v : Version} (hv : v.Sound) {inputs0 inputs1 : List FileMetaData} {level l : ℕ}
    (h0 : inputs0 ⊆ v level) (h1 : inputs1 ⊆ v (level + 1)) {g : FileMetaData} (hg : g ∈ v l) :
    (g.number ∉ (if l = level then inputs0.map FileMetaData.number else []) ++
        if l = level + 1 then inputs1.map FileMetaData.number else []) ↔
      g ∉ inputs0 ∧ g ∉ inputs1 := by
  have hlevel {files : List FileMetaData} {j : ℕ} (hsub : files ⊆ v j) :
      g.number ∈ (if l = j then files.map FileMetaData.number else []) ↔ g ∈ files := by
    by_cases hl : l = j
    · subst hl
      rw [if_pos rfl, mem_of_number hv hsub hg]
    · rw [if_neg hl]
      refine iff_of_false (by simp) fun hin => hl ?_
      exact (hv.numbers l j g hg g (hsub hin) rfl).1
  rw [List.mem_append, hlevel h0, hlevel h1, not_or]

theorem move_spec {edit : VersionEdit} (hedit : edit.deleted_files = [] ∧ edit.new_files = []) (f : FileMetaData)
    (level l : ℕ) :
    Builder.newAt ((edit.deleteFile level f.number).addFile (level + 1) f) l =
        (if l = level + 1 then [f] else []) ∧
      Builder.deletedAt ((edit.deleteFile level f.number).addFile (level + 1) f) l =
        (if l = level then [f].map FileMetaData.number else []) ++
          if l = level + 1 then ([] : List FileMetaData).map FileMetaData.number else [] := by
  have hnone : Builder.newAt edit l = [] ∧ Builder.deletedAt edit l = [] := by
    simp [Builder.newAt, Builder.deletedAt, hedit.1, hedit.2]
  obtain ⟨hnew, hdeleted⟩ := Builder.addFiles_spec [f] (edit.deleteFile level f.number) (level + 1) l
  obtain ⟨hdeleted', hnew'⟩ := Builder.deleteFiles_spec [f] edit level l
  rw [List.foldl_cons, List.foldl_nil] at hnew hdeleted hdeleted' hnew'
  rw [hnew, hdeleted, hdeleted', hnew', hnone.1, hnone.2]
  simp

theorem move_fitting {v : Version} (hv : v.Sound) {c : Compaction} {is_manual : Bool} (ha : Around v c is_manual)
    {f : FileMetaData} (h0 : c.inputs0 = [f]) (h1 : c.inputs1 = []) :
    Version.Fitting v ((c.edit.deleteFile c.level f.number).addFile (c.level + 1) f) (c.level + 1) [f] := by
  have hf : f ∈ v c.level := ha.sub0 (h0 ▸ by simp)
  have hkept {l : ℕ} {g : FileMetaData} (hg : g ∈ v l)
      (hnot : g.number ∉ Builder.deletedAt ((c.edit.deleteFile c.level f.number).addFile (c.level + 1) f) l) :
      g ≠ f := by
    rw [(move_spec ha.edit f c.level l).2, not_deleted hv (h0 ▸ ha.sub0) (by simp) hg] at hnot
    exact fun heq => hnot.1 (by simp [heq])
  have hin : f ∈ c.inputs := by simp [Compaction.inputs, h0]
  constructor
  · exact ha.bottom
  · exact fun l => (move_spec ha.edit f c.level l).1
  · simp
  · intro l g hg hor f' hf' heq
    rw [List.mem_singleton.mp hf'] at heq
    obtain ⟨hl, rfl⟩ := hv.numbers l c.level g hg f hf heq
    rcases hor with hor | hor
    · omega
    · exact hkept hg hor rfl
  · intro f' hf'
    rw [List.mem_singleton.mp hf']
    exact hv.typed _ f hf
  · intro l hl g hg hnot f' hf'
    rw [List.mem_singleton.mp hf']
    rcases (Nat.lt_succ_iff.mp hl).lt_or_eq with hlt | rfl
    · exact hv.levels l c.level hlt g hg f hf
    · exact ha.above g hg (h0 ▸ by simpa using hkept hg hnot) f (h0 ▸ by simp)
  · intro l hl g hg _ f' hf'
    rw [List.mem_singleton.mp hf']
    exact hv.levels c.level l (by omega) f hf g hg
  · exact fun hzero => absurd hzero (Nat.succ_ne_zero _)
  · intro _ f' hf' g hg hnot
    rw [List.mem_singleton.mp hf']
    rcases ha.placed g hg (by simp [h1]) with hlt | hlt
    · exact .inr (hlt f hin)
    · exact .inl (hlt f hin)
  · exact fun _ => List.pairwise_singleton _ _

theorem Sound.move (h : s.Sound) (hshows : s.Shows t) (hidle : s.compacting = none) {c : Compaction}
    {is_manual : Bool} (ha : Around s.versions.current c is_manual) {f : FileMetaData} (h0 : c.inputs0 = [f])
    (h1 : c.inputs1 = []) {versions : VersionSet} (hlast : versions.last_sequence = s.versions.last_sequence)
    (hnext : versions.next_file_number = s.versions.next_file_number)
    (hcurrent : versions.current = Builder.saveTo s.versions.current
      ((c.edit.deleteFile c.level f.number).addFile (c.level + 1) f)) :
    Sound { s with versions } ∧ Shows { s with versions } t := by
  have hfit := move_fitting h.version ha h0 h1
  have hf : f ∈ s.versions.current c.level := ha.sub0 (h0 ▸ by simp)
  have hmem (l : ℕ) (g : FileMetaData) : g ∈ versions.current l ↔
      l = c.level + 1 ∧ g = f ∨ g ∈ s.versions.current l ∧ g ≠ f := by
    rw [hcurrent, (hfit.spec h.version l).2 g, List.mem_singleton]
    refine or_congr_right (and_congr_right fun hg => ?_)
    rw [(move_spec ha.edit f c.level l).2, not_deleted h.version (h0 ▸ ha.sub0) (by simp) hg]
    simp
  have hfrom {l : ℕ} {g : FileMetaData} (hg : g ∈ versions.current l) : ∃ l', g ∈ s.versions.current l' := by
    rcases (hmem l g).mp hg with ⟨-, rfl⟩ | ⟨hg, -⟩
    · exact ⟨_, hf⟩
    · exact ⟨_, hg⟩
  have hcontents (e : InternalKey × Bytes) : e ∈ versions.current.contents ↔ e ∈ s.versions.current.contents := by
    rw [Version.mem_contents, Version.mem_contents]
    constructor
    · rintro ⟨l, hl, g, hg, he⟩
      rcases (hmem l g).mp hg with ⟨rfl, rfl⟩ | ⟨hg, -⟩
      · exact ⟨c.level, by omega, g, hf, he⟩
      · exact ⟨l, hl, g, hg, he⟩
    · rintro ⟨l, hl, g, hg, he⟩
      by_cases heq : g = f
      · exact ⟨c.level + 1, ha.bottom, g, (hmem _ g).mpr (.inl ⟨rfl, heq⟩), he⟩
      · exact ⟨l, hl, g, (hmem l g).mpr (.inr ⟨hg, heq⟩), he⟩
  have hstore (e : InternalKey × Bytes) : e ∈ store { s with versions } ↔ e ∈ s.store := by
    rw [mem_store, mem_store, hcontents]
  have hsound : Sound { s with versions } := by
    have htop : top { s with versions } = s.top := by rw [top, top, hlast]
    exact { h with
      version := hcurrent ▸ hfit.sound h.version
      room := htop ▸ h.room
      short := fun e he => h.short e ((hstore e).mp he)
      upto := fun e he => htop ▸ h.upto e ((hstore e).mp he)
      mem_files := fun l g hg => by
        obtain ⟨l', hg⟩ := hfrom hg
        exact h.mem_files l' g hg
      imm_files := fun imm himm l g hg => by
        obtain ⟨l', hg⟩ := hfrom hg
        exact h.imm_files imm himm l' g hg
      snapshots_le := fun q hq => hlast ▸ h.snapshots_le q hq
      numbers := fun l g hg => by
        obtain ⟨l', hg⟩ := hfrom hg
        exact hnext ▸ h.numbers l' g hg
      working := fun c is_manual hc => absurd (hidle.symm.trans hc) (by simp) }
  exact ⟨hsound, hshows.relaid hlast rfl rfl (fun q _ k => finds_relaid h hsound hstore q k)
    fun q _ k => finds_relaid h hsound hstore q k⟩

theorem kMaxSequence_toNat : kMaxSequence.toNat = 2 ^ 56 - 1 := by decide

theorem Sound.last_lt (h : s.Sound) : s.versions.last_sequence < kMaxSequence := by
  have hroom := h.room
  rw [top] at hroom
  rw [UInt64.lt_iff_toNat_lt, kMaxSequence_toNat]
  omega

theorem Sound.smallest_le (h : s.Sound) : s.smallestSnapshot.toNat ≤ s.versions.last_sequence.toNat ∧
    ∀ q ∈ s.snapshots, s.smallestSnapshot.toNat ≤ q.toNat := by
  rw [smallestSnapshot]
  cases hsnapshots : s.snapshots with
  | nil => exact ⟨le_rfl, by simp⟩
  | cons q rest =>
    have hsorted := h.snapshots
    have hle := h.snapshots_le
    rw [hsnapshots] at hsorted hle
    exact ⟨hle q (by simp), List.forall_mem_cons.mpr ⟨le_rfl, (List.pairwise_cons.mp hsorted).1⟩⟩

theorem Sound.start (h : s.Sound) (hshows : s.Shows t) {c : Compaction} {is_manual : Bool}
    (ha : Around s.versions.current c is_manual)
    (hinput : CompactionState.inputEntries c = (CompactionState.merged c).entries) {versions : VersionSet}
    (hlast : versions.last_sequence = s.versions.last_sequence)
    (hnext : versions.next_file_number = s.versions.next_file_number)
    (hcurrent : versions.current = s.versions.current) :
    Sound { s with versions, compacting := some (CompactionState.new c s.smallestSnapshot, is_manual) } ∧
      Shows { s with versions, compacting := some (CompactionState.new c s.smallestSnapshot, is_manual) } t := by
  obtain ⟨hsmallest, holdest⟩ := h.smallest_le
  obtain ⟨current, compact_pointer, next, last⟩ := versions
  dsimp only at hlast hnext hcurrent
  subst hlast hnext hcurrent
  refine ⟨{ h with working := fun c' is_manual' hc => ?_ }, { hshows with }⟩
  obtain ⟨rfl, rfl⟩ := Prod.mk.inj (Option.some.inj hc)
  refine ⟨ha, ⟨[], CompactionState.new_swept hinput fun e he => ?_, hinput⟩, hsmallest, holdest, List.nodup_nil,
    fun n hn => absurd hn (by simp [CompactionState.numbers, CompactionState.new]),
    fun l f _ => by simp [CompactionState.numbers, CompactionState.new]⟩
  obtain ⟨g, hg, he⟩ := (ha.merged e).mp he
  rcases List.mem_append.mp hg with hg | hg
  · exact h.version.typed _ g (ha.sub0 hg) e he
  · exact h.version.typed _ g (ha.sub1 hg) e he

theorem Sound.backgroundCompaction (h : s.Sound) (hshows : s.Shows t) {trigger : Trigger}
    (hwhole : ∀ picked ∈ s.versions.pickCompaction o trigger, Whole s.versions.current picked.1) :
    (s.backgroundCompaction o trigger).Sound ∧ (s.backgroundCompaction o trigger).Shows t := by
  rw [DBImpl.backgroundCompaction]
  by_cases hbusy : s.compacting.isSome = true
  · rw [if_pos hbusy]
    exact ⟨h, hshows⟩
  · have hidle : s.compacting = none := by simpa using hbusy
    rw [if_neg hbusy]
    by_cases himm : s.imm.isSome = true
    · rw [if_pos himm]
      refine h.compactMemTable (fun work hwork => ?_) hshows
      exact absurd (hidle.symm.trans hwork) (by simp)
    · rw [if_neg himm]
      cases hpick : s.versions.pickCompaction o trigger with
      | none => exact ⟨h, hshows⟩
      | some picked =>
        obtain ⟨c, versions⟩ := picked
        obtain ⟨hready, hdeleted, hnew, hcurrent, hnext, hlast, hauto⟩ := VersionSet.pickCompaction_spec hpick
        have ha := around_start h.version hready (hwhole _ hpick) (!trigger.automatic)
          (fun hmanual => hauto (by simpa using hmanual)) ⟨hdeleted, hnew⟩
        dsimp only
        by_cases hmove : trigger.automatic ∧ isTrivialMove o c
        · rw [if_pos hmove]
          obtain ⟨hone, hnone, -⟩ : c.inputs0.length = 1 ∧ c.inputs1.length = 0 ∧ _ := by
            simpa [isTrivialMove] using hmove.2
          obtain ⟨f, h0⟩ := List.length_eq_one_iff.mp hone
          have h1 := List.length_eq_zero_iff.mp hnone
          rw [h0, List.foldl_cons, List.foldl_nil]
          refine h.move hshows hidle ha h0 h1 hlast hnext ?_
          rw [VersionSet.logAndApply, hcurrent]
        · rw [if_neg hmove]
          exact h.start hshows ha (CompactionState.inputEntries_eq h.version hready) hlast hnext hcurrent

theorem Sound.turn (h : s.Sound) (hshows : s.Shows t) : (s.turn o).Sound ∧ (s.turn o).Shows t := by
  rw [DBImpl.turn]
  cases hwork : s.compacting with
  | none => exact ⟨h, hshows⟩
  | some work =>
    obtain ⟨c, is_manual⟩ := work
    have hw := h.working c is_manual hwork
    obtain ⟨done, hswept, hdone⟩ := hw.swept
    have hnext : s.versions.next_file_number ≤ (c.turn o s.versions.next_file_number).2 ∧
        Working { s with versions := { s.versions with
          next_file_number := (c.turn o s.versions.next_file_number).2 } }
            (c.turn o s.versions.next_file_number).1 is_manual := by
      cases hinput : c.input with
      | nil =>
        have hstay : c.turn o s.versions.next_file_number = (c, s.versions.next_file_number) := by
          rw [CompactionState.turn, hinput]
        rw [hstay]
        exact ⟨le_rfl, { hw with }⟩
      | cons e input =>
        have hturned := CompactionState.turn_spec o s.versions.next_file_number hswept hinput (by
          have hlast := UInt64.lt_iff_toNat_lt.mp h.last_lt
          exact UInt64.lt_iff_toNat_lt.mpr (hw.smallest.trans_lt hlast)) hw.around.input_version.sorted
        generalize c.turn o s.versions.next_file_number = turned at hturned ⊢
        have hnumbers : turned.1.numbers.Sublist (c.numbers ++ [s.versions.next_file_number]) ∧
            (∀ n ∈ turned.1.numbers, n < turned.2) ∧ s.versions.next_file_number ≤ turned.2 := by
          rcases hturned.numbers with ⟨hsub, heq⟩ | ⟨hsub, heq⟩
          · exact ⟨hsub.trans (List.sublist_append_left _ _), fun n hn => heq ▸ hw.taken n (hsub.subset hn), heq.ge⟩
          · refine ⟨hsub, fun n hn => ?_, by omega⟩
            rcases List.mem_append.mp (hsub.subset hn) with hn | hn
            · exact heq ▸ (hw.taken n hn).trans (Nat.lt_succ_self _)
            · rw [List.mem_singleton.mp hn, heq]
              exact Nat.lt_succ_self _
        obtain ⟨hsub, hbelow, hle⟩ := hnumbers
        refine ⟨hle, ?_⟩
        constructor
        · exact hturned.compaction ▸ hw.around
        · refine ⟨_, hturned.swept, ?_⟩
          rw [hturned.input, hturned.compaction, ← hdone, hinput, List.append_assoc]
          rfl
        · exact hturned.smallest_snapshot ▸ hw.smallest
        · exact hturned.smallest_snapshot ▸ hw.oldest
        · refine hsub.nodup (List.nodup_append.mpr ⟨hw.nodup, List.nodup_singleton _, ?_⟩)
          rintro n hn _ hn' rfl
          rw [List.mem_singleton.mp hn'] at hn
          exact absurd (hw.taken _ hn) (lt_irrefl _)
        · exact hbelow
        · intro l f hf hin
          rcases List.mem_append.mp (hsub.subset hin) with hn | hn
          · exact hw.fresh l f hf hn
          · exact absurd (h.numbers l f hf) (List.mem_singleton.mp hn ▸ lt_irrefl _)
    obtain ⟨hle, hworking⟩ := hnext
    refine ⟨{ h with
      numbers := fun l f hf => (h.numbers l f hf).trans_le hle
      working := fun c' is_manual' hc => ?_ }, { hshows with }⟩
    obtain ⟨rfl, rfl⟩ := Prod.mk.inj (Option.some.inj hc)
    exact { hworking with }

structure Done (s : DBImpl) (c : CompactionState) (is_manual : Bool)
    (done : List (InternalKey × Bytes)) : Prop where
  working : Working s c is_manual
  swept : CompactionState.Swept c done
  merged : ∀ e, e ∈ done ↔ ∃ g ∈ c.compaction.inputs, e ∈ g.table.entries
  kept : c.kept = c.outputs.flatMap fun f => f.table.entries
  numbers : c.numbers = c.outputs.map FileMetaData.number

theorem finish_done {is_manual : Bool} (hw : Working s c is_manual) (hinput : c.input = []) :
    ∃ done, Done s (c.finishCompactionOutputFile o) is_manual done := by
  obtain ⟨done, hswept, hdone⟩ := hw.swept
  have halike := CompactionState.finish_alike o c
  have hnumbers := CompactionState.finish_numbers o c
  have hbuilder : (c.finishCompactionOutputFile o).builder = none := by
    rw [CompactionState.finishCompactionOutputFile]
    cases hb : c.builder with
    | none => exact hb
    | some b => rfl
  have hmerged : done = (CompactionState.merged c.compaction).entries := by
    rw [← hdone, hinput, List.append_nil]
  generalize c.finishCompactionOutputFile o = c' at halike hnumbers hbuilder ⊢
  have hworking : Working s c' is_manual := by
    constructor
    · exact halike.compaction ▸ hw.around
    · refine ⟨done, halike.swept hswept, ?_⟩
      rw [halike.input, halike.compaction, hdone]
    · exact halike.smallest_snapshot ▸ hw.smallest
    · exact halike.smallest_snapshot ▸ hw.oldest
    · exact hnumbers.nodup hw.nodup
    · exact fun n hn => hw.taken n (hnumbers.subset hn)
    · exact fun l f hf hin => hw.fresh l f hf (hnumbers.subset hin)
  refine ⟨done, hworking, halike.swept hswept, fun e => ?_, ?_, ?_⟩
  · rw [hmerged, halike.compaction]
    exact hw.around.merged e
  · simp [CompactionState.kept, hbuilder]
  · simp [CompactionState.numbers, hbuilder]

namespace Done
variable {is_manual : Bool} {done : List (InternalKey × Bytes)}

theorem from_input (h : Done s c is_manual done) {f : FileMetaData} (hf : f ∈ c.outputs)
    {e : InternalKey × Bytes} (he : e ∈ f.table.entries) :
    e ∈ done ∧ ∃ g ∈ c.compaction.inputs, e ∈ g.table.entries := by
  have hkept : e ∈ c.kept := by
    rw [h.kept]
    exact List.mem_flatMap.mpr ⟨f, hf, he⟩
  have hdone := h.swept.sub.subset hkept
  exact ⟨hdone, (h.merged e).mp hdone⟩

theorem sorted (h : Done s c is_manual done) : c.outputs.Pairwise fun f g => f.largest < g.smallest := by
  have hsorted : c.kept.Pairwise fun e e' => e.1 < e'.1 :=
    (List.pairwise_append.mp h.swept.sorted).1.sublist h.swept.sub
  rw [h.kept] at hsorted
  refine (List.pairwise_flatMap.mp hsorted).2.imp fun {f g} hfg => ?_
  obtain ⟨v, hv⟩ := f.largest_mem
  obtain ⟨w, hw⟩ := g.smallest_mem
  exact hfg _ hv _ hw

theorem above (hs : s.Sound) (h : Done s c is_manual done) {l : ℕ} (hl : l < c.compaction.level + 1)
    {g : FileMetaData} (hg : g ∈ s.versions.current l) (hnot : g ∉ c.compaction.inputs0) {f : FileMetaData}
    (hf : f ∈ c.outputs) : g.Newer f := by
  intro e he e' he' hkey
  obtain ⟨-, input, hinput, hin⟩ := h.from_input hf he'
  have ha := h.working.around
  rcases List.mem_append.mp hinput with hinput | hinput
  · rcases (Nat.lt_succ_iff.mp hl).lt_or_eq with hlt | rfl
    · exact hs.version.levels l _ hlt g hg input (ha.sub0 hinput) e he e' hin hkey
    · exact ha.above g hg hnot input hinput e he e' hin hkey
  · exact hs.version.levels l _ hl g hg input (ha.sub1 hinput) e he e' hin hkey

theorem below (hs : s.Sound) (h : Done s c is_manual done) {l : ℕ} (hl : c.compaction.level + 1 < l)
    {g : FileMetaData} (hg : g ∈ s.versions.current l) {f : FileMetaData} (hf : f ∈ c.outputs) : f.Newer g := by
  intro e he e' he' hkey
  obtain ⟨-, input, hinput, hin⟩ := h.from_input hf he
  have ha := h.working.around
  rcases List.mem_append.mp hinput with hinput | hinput
  · exact hs.version.levels _ l (by omega) input (ha.sub0 hinput) g hg e hin e' he' hkey
  · exact hs.version.levels _ l hl input (ha.sub1 hinput) g hg e hin e' he' hkey

theorem deleted_iff (hs : s.Sound) (h : Done s c is_manual done) {l : ℕ} {g : FileMetaData}
    (hg : g ∈ s.versions.current l) : g.number ∉ Builder.deletedAt (results c) l ↔
      g ∉ c.compaction.inputs0 ∧ g ∉ c.compaction.inputs1 := by
  have ha := h.working.around
  rw [(results_spec ha.edit l).2]
  exact not_deleted hs.version ha.sub0 ha.sub1 hg

theorem fitting (hs : s.Sound) (h : Done s c is_manual done) :
    Version.Fitting s.versions.current (results c) (c.compaction.level + 1) c.outputs := by
  have ha := h.working.around
  constructor
  · exact ha.bottom
  · exact fun l => (results_spec ha.edit l).1
  · exact h.numbers ▸ h.working.nodup
  · intro l g hg _ f hf heq
    refine h.working.fresh l g hg ?_
    rw [h.numbers, heq]
    exact List.mem_map_of_mem hf
  · intro f hf e he
    exact h.swept.typed e (List.mem_append_left _ (h.from_input hf he).1)
  · intro l hl g hg hnot f hf
    exact h.above hs hl hg ((h.deleted_iff hs hg).mp hnot).1 hf
  · exact fun l hl g hg _ f hf => h.below hs hl hg hf
  · exact fun hzero => absurd hzero (Nat.succ_ne_zero _)
  · intro _ f hf g hg hnot
    obtain ⟨v, hv⟩ := f.smallest_mem
    obtain ⟨w, hw⟩ := f.largest_mem
    obtain ⟨-, low, hlow, hinlow⟩ := h.from_input hf hv
    obtain ⟨-, high, hhigh, hinhigh⟩ := h.from_input hf hw
    rcases ha.placed g hg ((h.deleted_iff hs hg).mp hnot).2 with hlt | hlt
    · exact .inr ((hlt low hlow).trans_le (FileMetaData.smallest_le hinlow))
    · exact .inl ((FileMetaData.le_largest hinhigh).trans_lt (hlt high hhigh))
  · exact fun _ => h.sorted

theorem mem_files (hs : s.Sound) (h : Done s c is_manual done) {l : ℕ} {g : FileMetaData} :
    g ∈ Builder.saveTo s.versions.current (results c) l ↔ l = c.compaction.level + 1 ∧ g ∈ c.outputs ∨
      g ∈ s.versions.current l ∧ g ∉ c.compaction.inputs0 ∧ g ∉ c.compaction.inputs1 := by
  rw [((h.fitting hs).spec hs.version l).2 g]
  exact or_congr_right (and_congr_right fun hg => h.deleted_iff hs hg)

theorem mem_contents (hs : s.Sound) (h : Done s c is_manual done) {e : InternalKey × Bytes} :
    e ∈ (Builder.saveTo s.versions.current (results c)).contents ↔ e ∈ c.kept ∨
      ∃ l < kNumLevels, ∃ g ∈ s.versions.current l, (g ∉ c.compaction.inputs0 ∧ g ∉ c.compaction.inputs1) ∧
        e ∈ g.table.entries := by
  simp only [Version.mem_contents, h.mem_files hs, h.kept, List.mem_flatMap]
  constructor
  · rintro ⟨l, hl, g, ⟨-, hg⟩ | ⟨hg, hstay⟩, he⟩
    · exact .inl ⟨g, hg, he⟩
    · exact .inr ⟨l, hl, g, hg, hstay, he⟩
  · rintro (⟨g, hg, he⟩ | ⟨l, hl, g, hg, hstay, he⟩)
    · exact ⟨_, h.working.around.bottom, g, .inl ⟨rfl, hg⟩, he⟩
    · exact ⟨l, hl, g, .inr ⟨hg, hstay⟩, he⟩

theorem input_in_version (h : Done s c is_manual done) {g : FileMetaData} (hg : g ∈ c.compaction.inputs) :
    ∃ l < kNumLevels, (l = c.compaction.level ∨ l = c.compaction.level + 1) ∧ g ∈ s.versions.current l := by
  have ha := h.working.around
  have hbottom := ha.bottom
  rcases List.mem_append.mp hg with hg | hg
  · exact ⟨_, by omega, .inl rfl, ha.sub0 hg⟩
  · exact ⟨_, hbottom, .inr rfl, ha.sub1 hg⟩

theorem done_in_store (h : Done s c is_manual done) {e : InternalKey × Bytes} (he : e ∈ done) : e ∈ s.store := by
  obtain ⟨g, hg, hin⟩ := (h.merged e).mp he
  obtain ⟨l, hl, -, hg⟩ := h.input_in_version hg
  exact mem_store.mpr (.inr (.inr (mem_contents_of hl hg hin)))

theorem base_newer (hs : s.Sound) (h : Done s c is_manual done) {e e' : InternalKey × Bytes} (he : e ∈ done)
    (hout : e ∉ c.kept) (hseq : e.1.sequence ≤ c.smallest_snapshot.toNat)
    (hbase : CompactionState.Base c.compaction.input_version c.compaction.level e.1.user_key)
    (he' : e' ∈ s.mem.entries ∨ (∃ imm ∈ s.imm, e' ∈ imm.entries) ∨
      e' ∈ (Builder.saveTo s.versions.current (results c)).contents)
    (hkey : e'.1.user_key = e.1.user_key) : e'.1 < e.1 := by
  have ha := h.working.around
  obtain ⟨input, hinput, hin⟩ := (h.merged e).mp he
  obtain ⟨l0, hl0, hor, hinput'⟩ := h.input_in_version hinput
  rcases he' with he' | ⟨imm, himm, he'⟩ | he'
  · exact hs.mem_files l0 input hinput' e' he' e hin hkey
  · exact hs.imm_files imm himm l0 input hinput' e' he' e hin hkey
  · rcases (h.mem_contents hs).mp he' with he' | ⟨l, hl, g, hg, ⟨hnot0, hnot1⟩, he'⟩
    · refine lt_of_le_of_ne (h.swept.shadowed e he hseq e' he' hkey) fun heq => hout ?_
      have hordered : Versions.Ordered InternalKey.user_key done := by
        refine List.Pairwise.imp ?_ (List.pairwise_append.mp h.swept.sorted).1
        exact fun hlt _ => hlt
      exact hordered.eq_of_fst (h.swept.sub.subset he') he heq ▸ he'
    · rcases lt_trichotomy l (c.compaction.level + 1) with hlt | rfl | hgt
      · rcases List.mem_append.mp hinput with hinput0 | hinput1
        · rcases (Nat.lt_succ_iff.mp hlt).lt_or_eq with hlt' | rfl
          · exact hs.version.levels l _ hlt' g hg input (ha.sub0 hinput0) e' he' e hin hkey
          · exact ha.above g hg hnot0 input hinput0 e' he' e hin hkey
        · exact hs.version.levels l _ hlt g hg input (ha.sub1 hinput1) e' he' e hin hkey
      · exact ha.beside g hg hnot1 input hinput e' he' e hin hkey
      · rcases ha.below l (by omega) hl g hg with hold | hapart
        · refine absurd ⟨?_, ?_⟩ (hbase l (by omega) hl g hold)
          · exact hkey ▸ InternalKey.user_key_mono (FileMetaData.smallest_le he')
          · exact hkey ▸ InternalKey.user_key_mono (FileMetaData.le_largest he')
        · rcases hapart input hinput with hbefore | hbefore
          · exact absurd hkey (hbefore.keys he' hin).ne
          · exact absurd hkey (hbefore.keys hin he').ne'

end Done

theorem Sound.replaced (h : s.Sound) (hshows : s.Shows t) {is_manual : Bool}
    {done : List (InternalKey × Bytes)} (hdone : Done s c is_manual done) :
    Sound { s with versions := s.versions.logAndApply (results c), compacting := none } ∧
      Shows { s with versions := s.versions.logAndApply (results c), compacting := none } t := by
  have hstore (e : InternalKey × Bytes) :
      e ∈ store { s with versions := s.versions.logAndApply (results c), compacting := none } ↔
        e ∈ s.mem.entries ∨ (∃ imm ∈ s.imm, e ∈ imm.entries) ∨
          e ∈ (Builder.saveTo s.versions.current (results c)).contents := mem_store
  have hsub : store { s with versions := s.versions.logAndApply (results c), compacting := none } ⊆ s.store := by
    intro e he
    rcases (hstore e).mp he with he | he | he
    · exact mem_store.mpr (.inl he)
    · exact mem_store.mpr (.inr (.inl he))
    · rcases (hdone.mem_contents h).mp he with he | ⟨l, hl, g, hg, -, he⟩
      · exact hdone.done_in_store (hdone.swept.sub.subset he)
      · exact mem_store.mpr (.inr (.inr (mem_contents_of hl hg he)))
  have hfiles {l : ℕ} {g : FileMetaData} (hg : g ∈ Builder.saveTo s.versions.current (results c) l)
      {es : List (InternalKey × Bytes)}
      (hold : ∀ l, ∀ g ∈ s.versions.current l, Versions.Newer InternalKey.user_key es g.table.entries) :
      Versions.Newer InternalKey.user_key es g.table.entries := by
    rcases (hdone.mem_files h).mp hg with ⟨-, hg⟩ | ⟨hg, -⟩
    · intro e he e' he' hkey
      obtain ⟨-, input, hinput, hin⟩ := hdone.from_input hg he'
      obtain ⟨l', -, -, hinput⟩ := hdone.input_in_version hinput
      exact hold l' input hinput e he e' hin hkey
    · exact hold l g hg
  have hsound : Sound { s with versions := s.versions.logAndApply (results c), compacting := none } := by
    refine { h with
      version := (hdone.fitting h).sound h.version
      short := fun e he => h.short e (hsub he)
      upto := fun e he => h.upto e (hsub he)
      mem_files := fun l g hg => hfiles hg h.mem_files
      imm_files := fun imm himm l g hg => hfiles hg (h.imm_files imm himm)
      numbers := fun l g hg => ?_
      working := fun c' is_manual' hc => absurd hc (by simp) }
    rcases (hdone.mem_files h).mp hg with ⟨-, hg⟩ | ⟨hg, -⟩
    · refine hdone.working.taken g.number ?_
      rw [hdone.numbers]
      exact List.mem_map_of_mem hg
    · exact h.numbers l g hg
  have hfinds (q : UInt64) (hq : c.smallest_snapshot.toNat ≤ q.toNat) (k : Bytes) :
      finds { s with versions := s.versions.logAndApply (results c), compacting := none } q k = s.finds q k := by
    refine Versions.newest_dropped h.ordered hsound.ordered hsub fun e he hout => ?_
    have hgone : e ∈ done ∧ e ∉ c.kept := by
      rw [hstore, (hdone.mem_contents h)] at hout
      push Not at hout
      obtain ⟨hmem, himm, hkept, hstay⟩ := hout
      refine ⟨?_, hkept⟩
      rcases mem_store.mp he with he | ⟨imm, himm', he⟩ | he
      · exact absurd he hmem
      · exact absurd he (himm imm himm')
      · obtain ⟨l, hl, g, hg, he⟩ := Version.mem_contents.mp he
        by_contra hnot
        refine hstay l hl g hg ⟨fun hin => hnot ?_, fun hin => hnot ?_⟩ he
        · exact (hdone.merged e).mpr ⟨g, List.mem_append_left _ hin, he⟩
        · exact (hdone.merged e).mpr ⟨g, List.mem_append_right _ hin, he⟩
    rcases hdone.swept.dropped e hgone.1 hgone.2 with ⟨e', he', hkey, hlt, hseq⟩ | ⟨htype, hseq, hbase⟩
    · refine .inl ⟨e', hdone.done_in_store he', hkey, hlt, InternalKey.reading_of_le ?_ (hseq.trans hq)⟩
      exact hdone.swept.typed e' (List.mem_append_left _ he')
    · refine .inr ⟨InternalKey.reading_deletion htype (hseq.trans hq), fun e' he' hkey => ?_⟩
      exact hdone.base_newer h hgone.1 hgone.2 hseq hbase ((hstore e').mp he') hkey
  refine ⟨hsound, hshows.relaid rfl rfl rfl (fun q hq k => hfinds q ?_ k) fun q hq k => hfinds q ?_ k⟩
  · rcases List.mem_cons.mp hq with rfl | hq
    · exact hdone.working.smallest
    · exact hdone.working.oldest q hq
  · have hle : s.versions.last_sequence.toNat ≤ s.top := Nat.le_add_right _ _
    exact hdone.working.smallest.trans (hq ▸ hle)

theorem Sound.install (h : s.Sound) (hshows : s.Shows t) : (s.install o).Sound ∧ (s.install o).Shows t := by
  rw [DBImpl.install]
  cases hwork : s.compacting with
  | none => exact ⟨h, hshows⟩
  | some work =>
    obtain ⟨c, is_manual⟩ := work
    dsimp only
    split_ifs with hinput
    · obtain ⟨done, hdone⟩ := finish_done (o := o) (h.working c is_manual hwork) hinput
      exact h.replaced hshows hdone
    · exact ⟨h, hshows⟩

/-- What a step relies on: that what is written fits and sequence numbers are left, that the versions of
a key are not split between the inputs of a compaction and what stays, and that a memtable does not go
into a gap of the inputs of a manual compaction. -/
def Careful (o : DBOptions) : Event → DBImpl → Prop
  | .insert groups, s =>
    WriteBatch.Fits groups ∧ s.versions.last_sequence.toNat + groups.flatten.length < 2 ^ 56 - 1
  | .compactMemTable, s => Clear o s
  | .backgroundCompaction trigger, s =>
    ∀ picked ∈ s.versions.pickCompaction o trigger, Whole s.versions.current picked.1
  | _, _ => True

instance decidableCareful (o : DBOptions) : ∀ (e : Event) (s : DBImpl), Decidable (Careful o e s)
  | .insert groups, s => inferInstanceAs (Decidable
      (WriteBatch.Fits groups ∧ s.versions.last_sequence.toNat + groups.flatten.length < 2 ^ 56 - 1))
  | .compactMemTable, s => inferInstanceAs (Decidable (Clear o s))
  | .backgroundCompaction trigger, s => inferInstanceAs (Decidable
      (∀ picked ∈ s.versions.pickCompaction o trigger, Whole s.versions.current picked.1))
  | .publish, _ => .isTrue trivial
  | .switchMemTable, _ => .isTrue trivial
  | .getSnapshot, _ => .isTrue trivial
  | .releaseSnapshot _, _ => .isTrue trivial
  | .turn, _ => .isTrue trivial
  | .install, _ => .isTrue trivial

theorem open_sound (next_file_number : ℕ) :
    (open_ next_file_number).Sound ∧ (open_ next_file_number).Shows Told.start := by
  have hnone (l : ℕ) (f : FileMetaData) (hf : f ∈ (open_ next_file_number).versions.current l) : False := by
    simp [open_] at hf
  have hstore : (open_ next_file_number).store = [] := by
    simp [store, open_, OrdMap.empty, Version.contents, Version.layer, Version.newestFirst]
  have hroom : (open_ next_file_number).top < 2 ^ 56 - 1 := by
    change 0 + 0 < 2 ^ 56 - 1
    decide
  constructor
  · have himm {p : Prop} (imm : MemTable) (h : imm ∈ (open_ next_file_number).imm) : p := absurd h (by simp [open_])
    exact {
      version := ⟨fun l _ => rfl, fun l f hf => (hnone l f hf).elim, fun i j _ f hf => (hnone i f hf).elim,
        fun i j f hf => (hnone i f hf).elim, fun f hf => (hnone 0 f hf).elim, fun l => List.Pairwise.nil,
        fun l _ => List.Pairwise.nil⟩
      mem_typed := fun e he => absurd he (by simp [open_, OrdMap.empty])
      imm_typed := fun imm h => himm imm h
      room := hroom
      counted := Nat.two_pow_pos 31
      short := fun e he => absurd he (by simp [hstore])
      upto := fun e he => absurd he (by simp [hstore])
      mem_imm := fun imm h => himm imm h
      mem_files := fun l f hf => (hnone l f hf).elim
      imm_files := fun imm h => himm imm h
      snapshots := List.Pairwise.nil
      snapshots_le := fun q hq => absurd hq (by simp [open_])
      numbers := fun l f hf => (hnone l f hf).elim
      working := fun c is_manual hc => absurd hc (by simp [open_]) }
  · have hfinds (q : UInt64) (k : Bytes) : (open_ next_file_number).finds q k = none := by
      rw [finds, hstore]
      rfl
    exact ⟨rfl, rfl, fun k => hfinds _ k, fun q _ k => hfinds q k, rfl, fun p hp => absurd hp (by simp [Told.start])⟩

theorem step_shows (h : s.Sound) (hshows : s.Shows t) {e : Event} (hcareful : Careful o e s) :
    (step o e s).Sound ∧ (step o e s).Shows (Told.step e t) := by
  cases e with
  | insert groups =>
    by_cases hidle : s.inserted = []
    · have hwritten : t.written = [] := hshows.inserted.symm.trans hidle
      obtain ⟨hsound, hshown⟩ := h.insert (t := t) hidle hcareful.1 hcareful.2
      refine ⟨hsound, ?_⟩
      rw [Told.step, if_pos hwritten]
      exact hshown hwritten hshows
    · have hwritten : t.written ≠ [] := hshows.inserted ▸ hidle
      rw [step, DBImpl.insert, if_neg hidle, Told.step, if_neg hwritten]
      exact ⟨h, hshows⟩
  | publish => exact h.publish hshows
  | switchMemTable => exact h.switchMemTable hshows
  | compactMemTable => exact h.compactMemTable hcareful hshows
  | getSnapshot => exact h.getSnapshot hshows
  | releaseSnapshot number => exact h.releaseSnapshot hshows number
  | backgroundCompaction trigger => exact h.backgroundCompaction hshows hcareful
  | turn => exact h.turn hshows
  | install => exact h.install hshows

theorem run_shows (es : List Event) (h : s.Sound) (hshows : s.Shows t)
    (hcareful : Trace.Along (step o) (Careful o) es s) :
    (Trace.run (step o) es s).Sound ∧ (Trace.run (step o) es s).Shows (Trace.run Told.step es t) := by
  induction es generalizing s t with
  | nil => exact ⟨h, hshows⟩
  | cons e es ih =>
    obtain ⟨hsound, hshown⟩ := step_shows h hshows hcareful.1
    exact ih hsound hshown hcareful.2

theorem Sound.le_max (h : s.Sound) {q : UInt64} (hq : q.toNat ≤ s.versions.last_sequence.toNat) :
    q ≤ kMaxSequence := by
  have hlast := UInt64.lt_iff_toNat_lt.mp h.last_lt
  exact UInt64.le_iff_toNat_le.mpr (hq.trans hlast.le)

section
variable {k : Bytes} (hk : k.length + 8 < 2 ^ 32)
include hk

theorem Sound.get_current (h : s.Sound) (hshows : s.Shows t) : s.get none k = .ok (t.current.get k) := by
  have hget : s.get none k = .ok (s.finds s.versions.last_sequence k) :=
    h.get_eq none s.versions.last_sequence rfl (h.le_max le_rfl) hk
  rw [hget, hshows.current]

theorem Sound.get_held (h : s.Sound) (hshows : s.Shows t) :
    ∀ p ∈ t.held, s.get (some p.1) k = .ok (p.2.get k) := by
  intro p hp
  have hin : p.1 ∈ s.snapshots := hshows.snapshots ▸ List.mem_map_of_mem hp
  have hget : s.get (some p.1) k = .ok (s.finds p.1 k) :=
    h.get_eq (some p.1) p.1 rfl (h.le_max (h.snapshots_le p.1 hin)) hk
  rw [hget, hshows.held p hp]

end

/-- In whatever order writes, memtable switches, flushes, snapshots and the turns of compactions come,
a read finds what was last written under the key, and at a snapshot what was there when it was taken. -/
theorem reads_told (o : DBOptions) (next_file_number : ℕ) (es : List Event)
    (h : Trace.Along (step o) (Careful o) es (open_ next_file_number)) (k : Bytes) (hk : k.length + 8 < 2 ^ 32) :
    let s := Trace.run (step o) es (open_ next_file_number)
    let t := Trace.run Told.step es Told.start
    s.get none k = .ok (t.current.get k) ∧ ∀ p ∈ t.held, s.get (some p.1) k = .ok (p.2.get k) := by
  obtain ⟨hopen, hstart⟩ := open_sound next_file_number
  obtain ⟨hsound, hshows⟩ := run_shows es hopen hstart h
  exact ⟨hsound.get_current hk hshows, hsound.get_held hk hshows⟩

def tight : DBOptions := ⟨1, OrdMap.size, OrdMap.size⟩

def busy : List Event :=
  [.insert [[.put [1] [1], .put [2] [1]]], .publish, .getSnapshot, .insert [[.delete [1]]], .publish,
    .switchMemTable, .compactMemTable, .insert [[.put [1] [2]]], .publish, .getSnapshot, .switchMemTable,
    .compactMemTable, .backgroundCompaction (.manual 1 none none), .turn, .insert [[], [.put [3] [3]]], .turn,
    .releaseSnapshot 2, .publish, .turn, .turn, .install]

theorem reads_told_busy :
    Trace.Along (step tight) (Careful tight) busy (open_ 2) ∧
      (Trace.run (step tight) busy (open_ 2)).get none [1] =
          .ok ((Trace.run Told.step busy Told.start).current.get [1]) ∧
        ∀ p ∈ (Trace.run Told.step busy Told.start).held,
          (Trace.run (step tight) busy (open_ 2)).get (some p.1) [1] = .ok (p.2.get [1]) :=
  have h : Trace.Along (step tight) (Careful tight) busy (open_ 2) := by decide +kernel
  ⟨h, reads_told tight 2 busy h [1] (by decide)⟩

end DBImpl
