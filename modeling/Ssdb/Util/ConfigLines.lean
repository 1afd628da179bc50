import Ssdb.Util.ConfigPaths

namespace ConfigTree
open Strings

def newline : Byte := charByte '\n'

def lines (text : Bytes) : List Bytes := text.splitOn newline

def joined (ls : List Bytes) : Bytes := ls.flatMap (· ++ [newline])

theorem joined_cons (l : Bytes) (ls : List Bytes) (rest : Bytes) :
    joined (l :: ls) ++ rest = l ++ newline :: (joined ls ++ rest) := by
  simp [joined]

theorem joined_append (ls ms : List Bytes) : joined (ls ++ ms) = joined ls ++ joined ms :=
  List.flatMap_append

theorem exists_lines (text : Bytes) : ∃ ls last, text = joined ls ++ last ∧
    lines text = ls ++ [last] ∧ ∀ l ∈ ls ++ [last], newline ∉ l := by
  induction text with
  | nil => exact ⟨[], [], rfl, rfl, by simp⟩
  | cons c text ih =>
    obtain ⟨ls, last, htext, hlines, hnew⟩ := ih
    have hcons : lines (c :: text) =
        if c = newline then [] :: lines text else (lines text).modifyHead (c :: ·) := by
      rw [lines, List.splitOn, List.splitOnP_cons_eq_if_modifyHead]
      simp [lines, List.splitOn]
    rcases eq_or_ne c newline with rfl | hc
    · refine ⟨[] :: ls, last, ?_, ?_, ?_⟩
      · rw [joined_cons, ← htext]
        rfl
      · rw [hcons, if_pos rfl, hlines]
        rfl
      · simpa using hnew
    · rw [if_neg hc, hlines] at hcons
      cases ls with
      | nil =>
        refine ⟨[], c :: last, by rw [htext]; rfl, hcons, ?_⟩
        simpa [hc.symm] using hnew
      | cons l ls =>
        refine ⟨(c :: l) :: ls, last, ?_, hcons, ?_⟩
        · rw [htext, joined_cons, joined_cons]
          rfl
        · simpa [hc.symm] using hnew

theorem lines_joined {ls : List Bytes} {last : Bytes} (h : ∀ l ∈ ls ++ [last], newline ∉ l) :
    lines (joined ls ++ last) = ls ++ [last] := by
  induction ls with
  | nil => exact List.splitOn_eq_singleton (h last (by simp))
  | cons l ls ih =>
    rw [joined_cons, lines, List.splitOn_append_cons_self_of_not_mem (h l (by simp))]
    exact congrArg (l :: ·) (ih fun m hm => h m (by simp_all))

def isTab (c : Byte) : Bool := c = charByte '\t'

def indentOf (line : Bytes) : ℕ := (line.takeWhile isTab).length

def content (line : Bytes) : Bytes := line.dropWhile isTab

def isCommentLine (line : Bytes) : Bool := (content line).head? = some (charByte '#')

inductive Reading where
  | blank
  | comment (text : Bytes)
  | entry (indent : ℕ) (key val : Bytes)
  | invalid

def readEntry (indent : ℕ) (key : Bytes) : Reading :=
  let name := key.takeWhile (fun ch => !isKvSeparator ch)
  if isspace (key.headD 0) then .invalid
  else if name.length = key.length then .invalid
  else .entry indent (trim name) (trim (key.drop (name.length + 1)))

def reading (line : Bytes) : Reading :=
  if isEmptyStr line then .blank
  else if isCommentLine line then .comment ((content line).drop 1)
  else readEntry (indentOf line) (content line)

def Reading.step (s : Loader) : Reading → Option Loader
  | blank => some s
  | comment text => some { s with root := (addChild s.root s.cfg (asBytes "#") text).1 }
  | entry indent key val =>
    if indent ≤ s.lastIndent + 1 then
      let (root, cfg) := addChild s.root (climb (s.lastIndent + 1 - indent) s.cfg) key val
      some ⟨root, cfg, indent⟩
    else none
  | invalid => none

theorem drop_indentOf (line : Bytes) : line.drop (indentOf line) = content line := by
  have hsplit : line.takeWhile isTab ++ content line = line := List.takeWhile_append_dropWhile
  have hdrop : (line.takeWhile isTab ++ content line).drop (indentOf line) = content line :=
    List.drop_left
  rwa [hsplit] at hdrop

theorem loadLine_reading (s : Loader) (buf : Bytes) :
    loadLine s buf = (reading (buf.takeWhile (· ≠ 0)).dropLast).step s := by
  rw [loadLine, reading]
  generalize (buf.takeWhile (· ≠ 0)).dropLast = line
  have hindent : (line.takeWhile (· = charByte '\t')).length = indentOf line := rfl
  dsimp only
  rw [hindent, drop_indentOf]
  by_cases hempty : isEmptyStr line
  · rw [if_pos hempty, if_pos hempty]
    rfl
  have hcomment : isCommentLine line = true ↔ (content line).head? = some (charByte '#') :=
    decide_eq_true_iff
  rw [if_neg hempty, if_neg hempty]
  by_cases hhash : (content line).head? = some (charByte '#')
  · rw [if_pos hhash, if_pos (hcomment.mpr hhash)]
    rfl
  rw [if_neg hhash, if_neg (mt hcomment.mp hhash), readEntry]
  generalize isspace ((content line).headD 0) = space
  cases space with
  | true => simp [Reading.step]
  | false =>
    by_cases hsame :
        ((content line).takeWhile fun ch => !isKvSeparator ch).length = (content line).length
    · simp [hsame, Reading.step]
    rcases lt_trichotomy (indentOf line) (s.lastIndent + 1) with hlt | heq | hgt
    · simp [hsame, Reading.step, Nat.le_of_lt_succ hlt, hlt.le]
    · simp [hsame, Reading.step, heq, climb]
    · have hdeep : ¬indentOf line ≤ s.lastIndent := by omega
      simp [hsame, Reading.step, hdeep, hgt]

def loadLines (s : Loader) (ls : List Bytes) : Option Loader :=
  ls.foldlM (fun s l => (reading l).step s) s

theorem loadLines_cons (s : Loader) (l : Bytes) (ls : List Bytes) :
    loadLines s (l :: ls) = ((reading l).step s).bind fun s => loadLines s ls := List.foldlM_cons

theorem loadLines_append (s : Loader) (ls ms : List Bytes) :
    loadLines s (ls ++ ms) = (loadLines s ls).bind fun s => loadLines s ms := List.foldlM_append

structure Fits (l : Bytes) : Prop where
  line : newline ∉ l
  nul : 0 ∉ l
  short : l.length < CONFIG_MAX_LINE - 1

theorem takeWhile_absent {b : Byte} {s : Bytes} (h : b ∉ s) : s.takeWhile (· ≠ b) = s := by
  refine List.takeWhile_eq_self_iff.mpr fun c hc => decide_eq_true ?_
  rintro rfl
  exact h hc

theorem exists_fits {text : Bytes} (hnul : 0 ∉ text)
    (hshort : ∀ l ∈ lines text, l.length < CONFIG_MAX_LINE - 1) : ∃ ls last,
    text = joined ls ++ last ∧ lines text = ls ++ [last] ∧ ∀ l ∈ ls ++ [last], Fits l := by
  obtain ⟨ls, last, htext, hlines, hnew⟩ := exists_lines text
  refine ⟨ls, last, htext, hlines, fun l hl => ⟨hnew l hl, fun h0 => hnul ?_, hshort l ?_⟩⟩
  · rw [htext]
    rcases List.mem_append.mp hl with hl | hl
    · exact List.mem_append_left _ (List.mem_flatMap.mpr ⟨l, hl, List.mem_append_left _ h0⟩)
    · rw [List.mem_singleton.mp hl] at h0
      exact List.mem_append_right _ h0
  · rwa [hlines]

namespace Fits
variable {l : Bytes}

theorem nil : Fits [] := ⟨by simp, by simp, by decide⟩

theorem takeWhile_line (h : Fits l) (rest : Bytes) :
    (l ++ newline :: rest).takeWhile (· ≠ newline) = l := by
  rw [List.takeWhile_append, takeWhile_absent h.line, if_pos rfl,
    List.takeWhile_cons_of_neg (by simp), List.append_nil]

theorem fgets_line (h : Fits l) (rest : Bytes) :
    fgets CONFIG_MAX_LINE (l ++ newline :: rest) = (l ++ [newline], rest) := by
  have hn : min (CONFIG_MAX_LINE - 1)
      (((l ++ newline :: rest).takeWhile (· ≠ newline)).length + 1) = (l ++ [newline]).length := by
    rw [h.takeWhile_line, List.length_append, List.length_singleton]
    exact min_eq_right h.short
  have hsplit : l ++ newline :: rest = (l ++ [newline]) ++ rest := by simp
  rw [fgets]
  change (List.take (min _ (((l ++ newline :: rest).takeWhile (· ≠ newline)).length + 1)) _,
    List.drop (min _ (((l ++ newline :: rest).takeWhile (· ≠ newline)).length + 1)) _) = _
  rw [hn, hsplit, List.take_left, List.drop_left]

theorem fgets_last (h : Fits l) : fgets CONFIG_MAX_LINE l = (l, []) := by
  have hn : l.length ≤ min (CONFIG_MAX_LINE - 1) ((l.takeWhile (· ≠ newline)).length + 1) := by
    rw [takeWhile_absent h.line]
    exact le_min h.short.le (Nat.le_succ _)
  exact Prod.ext (List.take_of_length_le hn) (List.drop_eq_nil_of_le hn)

theorem loadLine_line (h : Fits l) (s : Loader) :
    loadLine s (l ++ [newline]) = (reading l).step s := by
  have hnul : 0 ∉ l ++ [newline] := by
    rw [List.mem_append, List.mem_singleton, not_or]
    exact ⟨h.nul, by decide⟩
  rw [loadLine_reading, takeWhile_absent hnul, List.dropLast_concat]

theorem loadLine_last (h : Fits l) (s : Loader) : loadLine s l = (reading l.dropLast).step s := by
  rw [loadLine_reading, takeWhile_absent h.nul]

end Fits

theorem loadFrom_joined {ls : List Bytes} {last : Bytes} (h : ∀ l ∈ ls ++ [last], Fits l)
    {fuel : ℕ} (hfuel : (joined ls ++ last).length ≤ fuel) (s : Loader) :
    loadFrom fuel s (joined ls ++ last) =
      loadLines s (if last = [] then ls else ls ++ [last.dropLast]) := by
  induction ls generalizing fuel s with
  | nil =>
    cases fuel with
    | zero =>
      obtain rfl : last = [] := List.length_eq_zero_iff.mp (Nat.le_zero.mp hfuel)
      rfl
    | succ fuel =>
      change loadFrom (fuel + 1) s last = _
      rw [loadFrom]
      split_ifs with hlast
      · rfl
      · have hfits := h last (by simp)
        rw [hfits.fgets_last]
        dsimp only
        rw [hfits.loadLine_last]
        cases hstep : (reading last.dropLast).step s with
        | none => simp [loadLines, hstep]
        | some s' => cases fuel <;> simp [loadLines, hstep, loadFrom]
  | cons l ls ih =>
    rw [joined_cons] at hfuel ⊢
    cases fuel with
    | zero => simp at hfuel
    | succ fuel =>
      have hfits := h l (by simp)
      have hrest : (joined ls ++ last).length ≤ fuel := by
        simp only [List.length_append, List.length_cons] at hfuel ⊢
        omega
      rw [loadFrom, if_neg (by simp), hfits.fgets_line]
      dsimp only
      rw [hfits.loadLine_line]
      have hih := ih (fun m hm => h m (List.mem_cons_of_mem l hm)) hrest
      cases hstep : (reading l).step s with
      | none => split_ifs <;> simp [loadLines, hstep]
      | some s' =>
        rw [Option.bind_eq_bind, Option.bind_some, hih s']
        split_ifs <;> simp [loadLines, hstep]

def start : Loader := ⟨.leaf ⟨asBytes "root", []⟩, [], 0⟩

theorem load_joined {ls : List Bytes} {last : Bytes} (h : ∀ l ∈ ls ++ [last], Fits l) :
    load (joined ls ++ last) =
      (loadLines start (if last = [] then ls else ls ++ [last.dropLast])).map Loader.root :=
  congrArg (Option.map Loader.root) (loadFrom_joined h le_rfl start)

theorem split_field (key : Bytes) : (∀ c ∈ key, isKvSeparator c = false) ∨
    ∃ name sep val, key = name ++ sep :: val ∧ (∀ c ∈ name, isKvSeparator c = false) ∧
      isKvSeparator sep = true := by
  induction key with
  | nil => exact .inl (by simp)
  | cons c key ih =>
    cases hc : isKvSeparator c with
    | true => exact .inr ⟨[], c, key, rfl, by simp, hc⟩
    | false =>
      rcases ih with hnone | ⟨name, sep, val, rfl, hname, hsep⟩
      · exact .inl (by simpa [hc] using hnone)
      · exact .inr ⟨c :: name, sep, val, rfl, by simpa [hc] using hname, hsep⟩

theorem readEntry_none {key : Bytes} (h : ∀ c ∈ key, isKvSeparator c = false) (indent : ℕ) :
    readEntry indent key = .invalid := by
  have hall : key.takeWhile (fun ch => !isKvSeparator ch) = key :=
    List.takeWhile_eq_self_iff.mpr fun c hc => by simp [h c hc]
  rw [readEntry, hall, if_pos rfl, ite_self]

theorem headD_split (name : Bytes) (sep : Byte) (val : Bytes) :
    (name ++ sep :: val).headD 0 = (name ++ [sep]).headD 0 := by cases name <;> rfl

theorem readEntry_split {name : Bytes} {sep : Byte} (hname : ∀ c ∈ name, isKvSeparator c = false)
    (hsep : isKvSeparator sep = true) (indent : ℕ) (val : Bytes) :
    readEntry indent (name ++ sep :: val) =
      if isspace ((name ++ [sep]).headD 0) then .invalid
      else .entry indent (trim name) (trim val) := by
  have hall : name.takeWhile (fun ch => !isKvSeparator ch) = name :=
    List.takeWhile_eq_self_iff.mpr fun c hc => by simp [hname c hc]
  have htake : (name ++ sep :: val).takeWhile (fun ch => !isKvSeparator ch) = name := by
    rw [List.takeWhile_append, hall, if_pos rfl, List.takeWhile_cons_of_neg (by simp [hsep]),
      List.append_nil]
  have hdrop : (name ++ sep :: val).drop (name.length + 1) = val := by
    rw [List.drop_append, List.drop_eq_nil_of_le (by omega), Nat.add_sub_cancel_left]
    rfl
  have hlen : name.length ≠ (name ++ sep :: val).length := by simp
  rw [readEntry, htake, headD_split, hdrop, if_neg hlen]

def ValidLine (last : ℕ) (line : Bytes) : Prop :=
  indentOf line ≤ last + 1 ∧ isspace ((content line).headD 0) = false ∧
    ∃ c ∈ content line, isKvSeparator c = true

def indentAfter (last : ℕ) (line : Bytes) : ℕ :=
  if isEmptyStr line ∨ isCommentLine line then last else indentOf line

def Accepted : ℕ → List Bytes → Prop
  | _, [] => True
  | last, l :: ls =>
    (isEmptyStr l ∨ isCommentLine l ∨ ValidLine last l) ∧ Accepted (indentAfter last l) ls

theorem reading_blank {line : Bytes} (h : isEmptyStr line = true) : reading line = .blank := if_pos h

theorem reading_comment {line : Bytes} (h : isEmptyStr line = false)
    (hcomment : isCommentLine line = true) : reading line = .comment ((content line).drop 1) := by
  rw [reading, h, hcomment]
  rfl

theorem reading_entry {line : Bytes} (h : isEmptyStr line = false)
    (hcomment : isCommentLine line = false) :
    reading line = readEntry (indentOf line) (content line) := by
  rw [reading, h, hcomment]
  rfl

theorem reading_shows {line : Bytes} (h : isEmptyStr line = false) : reading line ≠ .blank := by
  cases hcomment : isCommentLine line with
  | true =>
    rw [reading_comment h hcomment]
    simp
  | false =>
    rw [reading_entry h hcomment, readEntry]
    split_ifs <;> simp

theorem readEntry_valid {key : Bytes} (hspace : isspace (key.headD 0) = false)
    (hsep : ∃ c ∈ key, isKvSeparator c = true) (indent : ℕ) :
    ∃ name val, readEntry indent key = .entry indent name val := by
  rcases split_field key with hnone | ⟨name, sep, val, rfl, hname, hs⟩
  · obtain ⟨c, hc, hsep⟩ := hsep
    exact absurd (hnone c hc) (by simp [hsep])
  · rw [headD_split] at hspace
    exact ⟨trim name, trim val, by rw [readEntry_split hname hs, hspace]; rfl⟩

theorem step_invalid {s : Loader} {line : Bytes} (h : ¬ValidLine s.lastIndent line) :
    (readEntry (indentOf line) (content line)).step s = none := by
  rw [readEntry]
  split_ifs with hspace hsame
  · rfl
  · rfl
  · refine if_neg fun hle => h ⟨hle, by simpa using hspace, ?_⟩
    rcases split_field (content line) with hnone | ⟨name, sep, val, hsplit, -, hsep⟩
    · refine absurd ?_ hsame
      rw [List.takeWhile_eq_self_iff.mpr fun c hc => by simp [hnone c hc]]
    · exact ⟨sep, by simp [hsplit], hsep⟩

theorem labelAt_above {t : ConfigTree} {p q : List ℕ} (h : p <+: q) (hq : t.labelAt q ≠ none) :
    t.labelAt p ≠ none := by
  obtain ⟨r, rfl⟩ := h
  intro hp
  rw [Rose.labelAt, Option.map_eq_none_iff] at hp
  rw [Rose.labelAt_append, hp] at hq
  exact hq rfl

theorem climb_above (n : ℕ) (cfg : List ℕ) : climb n cfg <+: cfg := by
  induction n generalizing cfg with
  | zero => exact List.prefix_refl cfg
  | succ n ih =>
    refine (ih _).trans ?_
    split_ifs
    · exact List.dropLast_prefix cfg
    · exact List.prefix_refl cfg

theorem addChild_ne {t : ConfigTree} {p : List ℕ} (h : t.labelAt p ≠ none) (key val : Bytes) :
    (addChild t p key val).1 ≠ t := by
  obtain ⟨n, -, hadded⟩ := addChild_spec h key val
  intro heq
  have hnew := hadded.new
  rw [heq, hadded.free n [] le_rfl] at hnew
  exact absurd hnew (by simp)

theorem addChild_injective {t : ConfigTree} {p : List ℕ} (h : t.labelAt p ≠ none)
    {key key' val val' : Bytes} (heq : (addChild t p key val).1 = (addChild t p key' val').1) :
    val = val' := by
  obtain ⟨n, hn, hadded⟩ := addChild_spec h key val
  obtain ⟨n', hn', hadded'⟩ := addChild_spec h key' val'
  obtain rfl : n = n' := by simpa using hn.symm.trans hn'
  have hnew := hadded.new
  rw [heq, hadded'.new] at hnew
  exact (congrArg ConfigEntry.val (Option.some.inj hnew)).symm

def Loader.Inside (s : Loader) : Prop := s.root.labelAt s.cfg ≠ none

namespace Loader.Inside
variable {s s' : Loader}

theorem climb (h : s.Inside) (n : ℕ) : s.root.labelAt (climb n s.cfg) ≠ none :=
  labelAt_above (climb_above n s.cfg) h

theorem step (h : s.Inside) {r : Reading} (hr : r.step s = some s') : s'.Inside := by
  cases r with
  | blank =>
    obtain rfl := Option.some.inj hr
    exact h
  | comment text =>
    obtain rfl := Option.some.inj hr
    obtain ⟨n, -, hadded⟩ := addChild_spec h (asBytes "#") text
    change (addChild s.root s.cfg (asBytes "#") text).1.labelAt s.cfg ≠ none
    rw [hadded.old (by simp)]
    exact h
  | entry indent key val =>
    rw [Reading.step] at hr
    split_ifs at hr with hle
    obtain rfl := Option.some.inj hr
    obtain ⟨n, hn, hadded⟩ := addChild_spec (h.climb (s.lastIndent + 1 - indent)) key val
    change (addChild s.root _ key val).1.labelAt (addChild s.root _ key val).2 ≠ none
    rw [hn, hadded.new]
    simp
  | invalid => exact absurd hr (by simp [Reading.step])

theorem shows (h : s.Inside) {r : Reading} (hr : r.step s = some s') (hblank : r ≠ .blank) :
    s'.root ≠ s.root := by
  cases r with
  | blank => exact absurd rfl hblank
  | comment text =>
    obtain rfl := Option.some.inj hr
    exact addChild_ne h _ _
  | entry indent key val =>
    rw [Reading.step] at hr
    split_ifs at hr with hle
    obtain rfl := Option.some.inj hr
    exact addChild_ne (h.climb _) _ _
  | invalid => exact absurd hr (by simp [Reading.step])

end Loader.Inside

theorem step_cases (s : Loader) (line : Bytes) :
    ((isEmptyStr line ∨ isCommentLine line ∨ ValidLine s.lastIndent line) ∧
      ∃ s', (reading line).step s = some s' ∧ s'.lastIndent = indentAfter s.lastIndent line) ∨
    (¬(isEmptyStr line ∨ isCommentLine line ∨ ValidLine s.lastIndent line) ∧
      (reading line).step s = none) := by
  cases hempty : isEmptyStr line with
  | true =>
    rw [reading_blank hempty]
    exact .inl ⟨.inl rfl, s, rfl, (if_pos (.inl hempty)).symm⟩
  | false =>
    cases hcomment : isCommentLine line with
    | true =>
      rw [reading_comment hempty hcomment]
      exact .inl ⟨.inr (.inl rfl), _, rfl, (if_pos (.inr hcomment)).symm⟩
    | false =>
      rw [reading_entry hempty hcomment]
      by_cases hvalid : ValidLine s.lastIndent line
      · obtain ⟨name, val, hentry⟩ := readEntry_valid hvalid.2.1 hvalid.2.2 (indentOf line)
        rw [hentry, Reading.step, if_pos hvalid.1]
        exact .inl ⟨.inr (.inr hvalid), _, rfl, (if_neg (by simp [hempty, hcomment])).symm⟩
      · exact .inr ⟨by simpa using hvalid, step_invalid hvalid⟩

theorem step_accepted {s s' : Loader} {line : Bytes} (h : (reading line).step s = some s') :
    (isEmptyStr line ∨ isCommentLine line ∨ ValidLine s.lastIndent line) ∧
      s'.lastIndent = indentAfter s.lastIndent line := by
  rcases step_cases s line with ⟨hline, s1, h1, hlast⟩ | ⟨-, hnone⟩
  · obtain rfl := Option.some.inj (h1.symm.trans h)
    exact ⟨hline, hlast⟩
  · exact absurd (hnone.symm.trans h) (by simp)

theorem step_rejected {s : Loader} {line : Bytes} (h : (reading line).step s = none) :
    ¬(isEmptyStr line ∨ isCommentLine line ∨ ValidLine s.lastIndent line) := by
  rcases step_cases s line with ⟨-, s1, h1, -⟩ | ⟨hline, -⟩
  · exact absurd (h1.symm.trans h) (by simp)
  · exact hline

theorem loadLines_accepted {s s' : Loader} {ls : List Bytes} (h : loadLines s ls = some s')
    (hs : s.Inside) : Accepted s.lastIndent ls ∧
      s'.lastIndent = ls.foldl indentAfter s.lastIndent ∧ s'.Inside := by
  induction ls generalizing s with
  | nil =>
    obtain rfl := Option.some.inj h
    exact ⟨trivial, rfl, hs⟩
  | cons l ls ih =>
    rw [loadLines_cons] at h
    obtain ⟨s1, h1, hrest⟩ := Option.bind_eq_some_iff.mp h
    obtain ⟨hline, hlast⟩ := step_accepted h1
    obtain ⟨hls, hlast', hin⟩ := ih hrest (hs.step h1)
    rw [hlast] at hls hlast'
    exact ⟨⟨hline, hls⟩, hlast', hin⟩

theorem loadLines_rejected {s : Loader} {ls : List Bytes} (h : loadLines s ls = none) :
    ¬Accepted s.lastIndent ls := by
  induction ls generalizing s with
  | nil => exact absurd h (by simp [loadLines])
  | cons l ls ih =>
    rintro ⟨hline, hls⟩
    rw [loadLines_cons] at h
    cases h1 : (reading l).step s with
    | none => exact step_rejected h1 hline
    | some s1 =>
      rw [h1] at h
      refine ih h ?_
      rwa [(step_accepted h1).2]

section last
variable {x : Bytes} {c : Byte}

theorem isEmptyStr_concat : isEmptyStr (x ++ [c]) = (isEmptyStr x && isspace c) := by
  simp [isEmptyStr]

theorem content_ne_nil (h : isEmptyStr x = false) : content x ≠ [] := by
  intro hnil
  rw [content, List.dropWhile_eq_nil_iff] at hnil
  have htab {b : Byte} (hb : isTab b = true) : isspace b = true := by
    rw [of_decide_eq_true hb]
    decide
  have hall : isEmptyStr x = true := List.all_eq_true.mpr fun b hb => htab (hnil b hb)
  rw [h] at hall
  exact absurd hall (by simp)

theorem content_concat (h : isEmptyStr x = false) : content (x ++ [c]) = content x ++ [c] := by
  have hne := content_ne_nil h
  rw [content] at hne ⊢
  rw [List.dropWhile_append, if_neg (by simpa using hne), content]

theorem indentOf_concat (h : isEmptyStr x = false) : indentOf (x ++ [c]) = indentOf x := by
  have hne := content_ne_nil h
  have hlen : (x.takeWhile isTab).length ≠ x.length := by
    intro hlen
    have hsplit := congrArg List.length (List.takeWhile_append_dropWhile (p := isTab) (l := x))
    rw [List.length_append, hlen] at hsplit
    exact hne (List.length_eq_zero_iff.mp (Nat.add_eq_left.mp hsplit))
  rw [indentOf, List.takeWhile_append, if_neg hlen]
  rfl

theorem isCommentLine_concat (h : isEmptyStr x = false) :
    isCommentLine (x ++ [c]) = isCommentLine x := by
  rw [isCommentLine, isCommentLine, content_concat h]
  cases hx : content x with
  | nil => exact absurd hx (content_ne_nil h)
  | cons b key => rfl

theorem readEntry_space (hc : isspace c = true) (indent : ℕ) :
    readEntry indent (x ++ [c]) = readEntry indent x := by
  have hkv : isKvSeparator c = false := by
    cases hkv : isKvSeparator c with
    | false => rfl
    | true =>
      rcases of_decide_eq_true hkv with rfl | rfl
      · exact absurd hc (by decide)
      · exact absurd hc (by decide)
  rcases split_field x with hnone | ⟨name, sep, val, rfl, hname, hsep⟩
  · rw [readEntry_none hnone, readEntry_none]
    intro b hb
    rcases List.mem_append.mp hb with hb | hb
    · exact hnone b hb
    · rwa [List.mem_singleton.mp hb]
  · rw [List.append_assoc, List.cons_append, readEntry_split hname hsep, readEntry_split hname hsep,
      trim_space val hc]

theorem entry_shortened {s s1 s2 : Loader} (hs : s.Inside) (hc : isspace c = false) {indent : ℕ}
    (h1 : (readEntry indent x).step s = some s1)
    (h2 : (readEntry indent (x ++ [c])).step s = some s2) : s1.root ≠ s2.root := by
  rcases split_field x with hnone | ⟨name, sep, val, rfl, hname, hsep⟩
  · rw [readEntry_none hnone] at h1
    exact absurd h1 (by simp [Reading.step])
  · rw [List.append_assoc, List.cons_append, readEntry_split hname hsep] at h2
    rw [readEntry_split hname hsep] at h1
    split_ifs at h1 h2 with hspace
    · exact absurd h1 (by simp [Reading.step])
    · rw [Reading.step] at h1 h2
      split_ifs at h1 h2 with hle
      obtain rfl := Option.some.inj h1
      obtain rfl := Option.some.inj h2
      intro heq
      exact trim_longer val hc (addChild_injective (hs.climb _) heq).symm

theorem comment_shortened {s : Loader} (hs : s.Inside) (hx : x ≠ []) :
    (addChild s.root s.cfg (asBytes "#") (x.drop 1)).1 ≠
      (addChild s.root s.cfg (asBytes "#") ((x ++ [c]).drop 1)).1 := by
  intro heq
  have hlen := congrArg List.length (addChild_injective hs heq)
  have hpos := List.length_pos_of_ne_nil hx
  simp only [List.length_drop, List.length_append, List.length_singleton] at hlen
  omega

theorem ValidLine.concat (hx : isEmptyStr x = false) {last : ℕ} (h : ValidLine last x) (c : Byte) :
    ValidLine last (x ++ [c]) := by
  obtain ⟨hle, hspace, b, hb, hsep⟩ := h
  refine ⟨by rwa [indentOf_concat hx], ?_, b, ?_, hsep⟩
  · rw [content_concat hx]
    cases hkey : content x with
    | nil => exact absurd hkey (content_ne_nil hx)
    | cons a key => rwa [hkey] at hspace
  · rw [content_concat hx]
    exact List.mem_append_left [c] hb

theorem last_byte_iff {s : Loader} (hs : s.Inside) :
    ((reading x).step s).map Loader.root = ((reading (x ++ [c])).step s).map Loader.root ↔
      isEmptyStr (x ++ [c]) = true ∨ isCommentLine (x ++ [c]) = false ∧
        (isspace c = true ∨ isEmptyStr x = false ∧ ¬ValidLine s.lastIndent (x ++ [c])) := by
  cases hx : isEmptyStr x with
  | true =>
    rw [reading_blank hx, Reading.step, Option.map_some]
    cases hc : isspace c with
    | true =>
      have hxc : isEmptyStr (x ++ [c]) = true := by rw [isEmptyStr_concat, hx, hc]; rfl
      rw [reading_blank hxc, Reading.step, Option.map_some]
      exact iff_of_true rfl (.inl hxc)
    | false =>
      have hxc : isEmptyStr (x ++ [c]) = false := by rw [isEmptyStr_concat, hx, hc]; rfl
      refine iff_of_false (fun heq => ?_) (by simp [hxc])
      obtain ⟨s', hs', hroot⟩ := Option.map_eq_some_iff.mp heq.symm
      exact hs.shows hs' (reading_shows hxc) hroot
  | false =>
    have hxc : isEmptyStr (x ++ [c]) = false := by rw [isEmptyStr_concat, hx]; rfl
    have hsame := isCommentLine_concat (c := c) hx
    cases hcomment : isCommentLine x with
    | true =>
      rw [hcomment] at hsame
      refine iff_of_false (fun heq => ?_) (by simp [hxc, hsame])
      rw [reading_comment hx hcomment, reading_comment hxc hsame, content_concat hx] at heq
      exact comment_shortened hs (content_ne_nil hx) (Option.some.inj heq)
    | false =>
      rw [hcomment] at hsame
      rw [hxc, hsame, reading_entry hx hcomment]
      cases hc : isspace c with
      | true =>
        rw [reading_entry hxc hsame, indentOf_concat hx, content_concat hx, readEntry_space hc]
        simp
      | false =>
        constructor
        · intro heq
          refine .inr ⟨rfl, .inr ⟨rfl, fun hvalid => ?_⟩⟩
          cases h2 : (reading (x ++ [c])).step s with
          | none => exact step_rejected h2 (.inr (.inr hvalid))
          | some s2 =>
            rw [h2] at heq
            obtain ⟨s1, h1, hroot⟩ := Option.map_eq_some_iff.mp heq
            rw [reading_entry hxc hsame, indentOf_concat hx, content_concat hx] at h2
            exact entry_shortened hs hc h1 h2 hroot
        · rintro (hblank | ⟨-, hspace | ⟨-, hnot⟩⟩)
          · exact absurd hblank (by simp)
          · exact absurd hspace (by simp)
          · rw [step_invalid fun hvalid => hnot (hvalid.concat hx c), reading_entry hxc hsame,
              step_invalid hnot]

end last

def EndsSafely (text : Bytes) : Prop :=
  let before := (lines text).dropLast
  let last := (lines text).getLastD []
  ¬Accepted 0 before ∨ isEmptyStr last = true ∨ isCommentLine last = false ∧
    (isspace (last.getLastD 0) = true ∨
      isEmptyStr last.dropLast = false ∧ ¬ValidLine (before.foldl indentAfter 0) last)

/-- A newline at the end of a text that has none there makes a difference unless the text ends
safely. -/
theorem final_newline {text : Bytes} (hnul : 0 ∉ text)
    (hshort : ∀ l ∈ lines text, l.length < CONFIG_MAX_LINE - 2)
    (hend : text.getLast? ≠ some newline) :
    load text = load (text ++ [newline]) ↔ EndsSafely text := by
  obtain ⟨ls, last, rfl, hlines, hfits⟩ :=
    exists_fits hnul fun l hl => (hshort l hl).trans (by decide)
  have hload : load (joined ls ++ last ++ [newline]) =
      (loadLines start (ls ++ [last])).map Loader.root := by
    have hmore : joined ls ++ last ++ [newline] = joined (ls ++ [last]) ++ [] := by simp [joined]
    rw [hmore, load_joined fun l hl => ?_, if_pos rfl]
    rcases List.mem_append.mp hl with hl | hl
    · exact hfits l hl
    · rw [List.mem_singleton.mp hl]
      exact Fits.nil
  have hinside : start.Inside := Option.some_ne_none _
  rw [hload, load_joined hfits, EndsSafely, hlines, List.dropLast_concat, List.getLastD_concat]
  rcases List.eq_nil_or_concat' last with rfl | ⟨x, c, rfl⟩
  · rcases List.eq_nil_or_concat' ls with rfl | ⟨ms, m, rfl⟩
    · exact iff_of_true rfl (.inr (.inl rfl))
    · exact absurd (by simp [joined]) hend
  · rw [if_neg (by simp), List.dropLast_concat, List.getLastD_concat, loadLines_append,
      loadLines_append]
    cases hls : loadLines start ls with
    | none =>
      exact iff_of_true rfl (.inl (loadLines_rejected hls))
    | some s =>
      obtain ⟨haccepted, hlast, hs⟩ := loadLines_accepted hls hinside
      have hskip : ¬¬Accepted 0 ls := not_not_intro haccepted
      have hiff := last_byte_iff (x := x) (c := c) hs
      rw [hlast] at hiff
      rw [or_iff_right hskip]
      simpa [start, loadLines] using hiff

theorem final_newline_blank :
    load (asBytes "k:12\n\t") = load (asBytes "k:12\n\t" ++ [newline]) :=
  (final_newline (by decide) (by decide) (by decide)).mpr (.inr (.inl (by decide)))

theorem last_byte_lost : let text := asBytes "k:12"
    0 ∉ text ∧ (∀ l ∈ lines text, l.length < CONFIG_MAX_LINE - 2) ∧
      text.getLast? ≠ some newline ∧ load text ≠ load (text ++ [newline]) ∧
      (load text).bind (valAt · [0]) = some (asBytes "1") ∧
      (load (text ++ [newline])).bind (valAt · [0]) = some (asBytes "12") := by
  have hcut : (load (asBytes "k:12")).bind (valAt · [0]) = some (asBytes "1") := by decide
  have hwhole : (load (asBytes "k:12" ++ [newline])).bind (valAt · [0]) = some (asBytes "12") := by
    decide
  refine ⟨by decide, by decide, by decide, fun heq => ?_, hcut, hwhole⟩
  rw [heq, hwhole] at hcut
  exact absurd hcut (by decide)

end ConfigTree
