import Ssdb.Util.ConfigLines

namespace ConfigTree
open Strings

def Plain (s : Bytes) : Prop := newline ∉ s ∧ 0 ∉ s

theorem Plain.mono {s r : Bytes} (h : Plain s) (hr : r ⊆ s) : Plain r :=
  ⟨fun hm => h.1 (hr hm), fun hm => h.2 (hr hm)⟩

theorem Plain.append {s r : Bytes} (hs : Plain s) (hr : Plain r) : Plain (s ++ r) := by
  simp only [Plain, List.mem_append, not_or]
  exact ⟨⟨hs.1, hr.1⟩, hs.2, hr.2⟩

structure Printable (e : ConfigEntry) : Prop where
  plainKey : Plain e.key
  plainVal : Plain e.val
  head : ∀ c ∈ e.key.head?, isspace c = false ∧ c ≠ charByte '#'
  field : ∀ c ∈ e.key, isKvSeparator c = false
  key : trim e.key = e.key
  val : trim e.val = e.val

theorem Printable.entry {e : ConfigEntry} (h : Printable e) : e.isComment = false := by
  refine decide_eq_false fun hhead => ?_
  exact (h.head _ hhead).2 rfl

def Reading.Good : Reading → Prop
  | comment text => Plain text
  | entry _ key val => Printable ⟨key, val⟩
  | _ => True

theorem content_subset (line : Bytes) : content line ⊆ line :=
  (List.dropWhile_suffix isTab).subset

theorem readEntry_good {key : Bytes} (h : Plain key) (hhash : key.head? ≠ some (charByte '#'))
    (indent : ℕ) : (readEntry indent key).Good := by
  rcases split_field key with hnone | ⟨name, sep, val, rfl, hname, hsep⟩
  · rw [readEntry_none hnone]
    trivial
  · rw [readEntry_split hname hsep]
    split_ifs with hspace
    · trivial
    · have hsub : trim name ⊆ name ++ sep :: val := fun c hc =>
        List.mem_append_left _ (trim_subset name hc)
      have hsub' : trim val ⊆ name ++ sep :: val := fun c hc =>
        List.mem_append_right _ (List.mem_cons_of_mem sep (trim_subset val hc))
      refine ⟨h.mono hsub, h.mono hsub', fun c hc => ?_, fun c hc => hname c (trim_subset name hc),
        trim_trim name, trim_trim val⟩
      change (trim name).head? = some c at hc
      cases hkey : trim name with
      | nil => rw [hkey] at hc; exact absurd hc (by simp)
      | cons b key =>
        rw [hkey] at hc
        obtain rfl := Option.some.inj hc
        have hpart := trim_part name
        rw [hkey] at hpart
        refine ⟨head_ltrim hpart, ?_⟩
        rintro rfl
        cases name with
        | nil => exact absurd hkey (by simp [trim, ltrim, rtrim])
        | cons a name =>
          have hself : ltrim (a :: name) = a :: name :=
            List.dropWhile_cons_of_neg (by simpa using hspace)
          rw [hself] at hpart
          exact hhash (by rw [(List.cons_prefix_cons.mp hpart).1]; rfl)

theorem reading_good {line : Bytes} (h : Plain line) : (reading line).Good := by
  have hcontent : Plain (content line) := h.mono (content_subset line)
  cases hempty : isEmptyStr line with
  | true =>
    rw [reading_blank hempty]
    trivial
  | false =>
    cases hcomment : isCommentLine line with
    | true =>
      rw [reading_comment hempty hcomment]
      exact hcontent.mono (List.drop_subset 1 _)
    | false =>
      rw [reading_entry hempty hcomment]
      exact readEntry_good hcontent (of_decide_eq_false hcomment) _

def tabs (depth : ℕ) : Bytes := List.replicate depth (charByte '\t')

def printed (depth : ℕ) (e : ConfigEntry) : Bytes :=
  tabs depth ++ if e.isComment then charByte '#' :: e.val else e.key ++ asBytes ": " ++ e.val

theorem saveLine_printed (depth : ℕ) (e : ConfigEntry) :
    List.replicate depth (charByte '\t') ++ saveLine e = printed depth e ++ [newline] := by
  rw [printed, saveLine]
  split_ifs <;> simp [tabs, newline]

theorem saveAll_printed (depth : ℕ) (t : ConfigTree) (ts : List ConfigTree) :
    saveAll depth (t :: ts) =
      joined [printed depth t.label] ++ save (depth + 1) t ++ saveAll depth ts := by
  rw [saveAll, saveLine_printed]
  simp [joined]

theorem plain_tabs (depth : ℕ) : Plain (tabs depth) := by
  refine ⟨fun h => ?_, fun h => ?_⟩ <;> exact absurd (List.eq_of_mem_replicate h) (by decide)

section printed
variable {depth : ℕ} {rest : Bytes} {c : Byte}

theorem content_tabs (hc : isTab c = false) : content (tabs depth ++ c :: rest) = c :: rest := by
  rw [content, List.dropWhile_append_of_pos fun b hb => by rw [List.eq_of_mem_replicate hb]; rfl,
    List.dropWhile_cons_of_neg (by simp [hc])]

theorem indentOf_tabs (hc : isTab c = false) : indentOf (tabs depth ++ c :: rest) = depth := by
  rw [indentOf, List.takeWhile_append_of_pos fun b hb => by rw [List.eq_of_mem_replicate hb]; rfl,
    List.takeWhile_cons_of_neg (by simp [hc]), List.append_nil, tabs, List.length_replicate]

theorem isEmptyStr_printed (hc : isspace c = false) :
    isEmptyStr (tabs depth ++ c :: rest) = false := by
  simp [isEmptyStr, hc]

theorem isTab_nonspace (hc : isspace c = false) : isTab c = false := by
  refine decide_eq_false ?_
  rintro rfl
  exact absurd hc (by decide)

end printed

theorem reading_printed_comment (depth : ℕ) (text : Bytes) :
    reading (printed depth ⟨asBytes "#", text⟩) = .comment text := by
  have hline : printed depth ⟨asBytes "#", text⟩ = tabs depth ++ charByte '#' :: text := rfl
  have hcontent : content (tabs depth ++ charByte '#' :: text) = charByte '#' :: text :=
    content_tabs (by decide)
  have hcomment : isCommentLine (tabs depth ++ charByte '#' :: text) = true := by
    rw [isCommentLine, hcontent]
    rfl
  rw [hline, reading_comment (isEmptyStr_printed (by decide)) hcomment, hcontent]
  rfl

theorem reading_printed_entry (depth : ℕ) {e : ConfigEntry} (h : Printable e) :
    reading (printed depth e) = .entry depth e.key e.val := by
  have hline : printed depth e = tabs depth ++ (e.key ++ charByte ':' :: charByte ' ' :: e.val) := by
    rw [printed, h.entry]
    simp [asBytes]
  obtain ⟨c, rest, hrest, hspace, hhash, hhead⟩ : ∃ c rest,
      e.key ++ charByte ':' :: charByte ' ' :: e.val = c :: rest ∧ isspace c = false ∧
        c ≠ charByte '#' ∧ (e.key ++ [charByte ':']).headD 0 = c := by
    cases hkey : e.key with
    | nil => exact ⟨_, _, rfl, by decide, by decide, rfl⟩
    | cons c key =>
      obtain ⟨hspace, hhash⟩ := h.head c (by rw [hkey]; rfl)
      exact ⟨c, _, rfl, hspace, hhash, rfl⟩
  have hcontent : content (tabs depth ++ c :: rest) = c :: rest :=
    content_tabs (isTab_nonspace hspace)
  have hindent : indentOf (tabs depth ++ c :: rest) = depth :=
    indentOf_tabs (isTab_nonspace hspace)
  have hcomment : isCommentLine (tabs depth ++ c :: rest) = false := by
    rw [isCommentLine, hcontent]
    simpa using hhash
  rw [hline, hrest, reading_entry (isEmptyStr_printed hspace) hcomment, hcontent, hindent, ← hrest,
    readEntry_split h.field (by decide), hhead, hspace, trim_cons_space _ (by decide), h.key, h.val]
  rfl

theorem plain_printed_entry (depth : ℕ) {e : ConfigEntry} (h : Printable e) :
    Plain (printed depth e) := by
  rw [printed, h.entry]
  have hsep : Plain (asBytes ": ") := ⟨by decide, by decide⟩
  exact (plain_tabs depth).append ((h.plainKey.append hsep).append h.plainVal)

theorem plain_printed_comment (depth : ℕ) {text : Bytes} (h : Plain text) :
    Plain (printed depth ⟨asBytes "#", text⟩) := by
  have hhash : Plain [charByte '#'] := ⟨by decide, by decide⟩
  exact (plain_tabs depth).append (hhash.append h)

inductive Formed : Bool → List ConfigTree → Prop
  | nil (b : Bool) : Formed b []
  | comment {text : Bytes} {ts : List ConfigTree} : Plain text → Formed true ts →
      Formed true (.leaf ⟨asBytes "#", text⟩ :: ts)
  | entry {b : Bool} {e : ConfigEntry} {cs ts : List ConfigTree} : Printable e → Formed true cs →
      Formed false ts → Formed b (.node e cs :: ts)

namespace Formed
variable {b : Bool} {ts : List ConfigTree}

theorem push_comment {text : Bytes} (h : Formed true ts) (hts : ∀ u ∈ ts, u.label.isComment = true)
    (htext : Plain text) : Formed true (ts ++ [.leaf ⟨asBytes "#", text⟩]) := by
  induction ts with
  | nil => exact comment htext (nil true)
  | cons t ts ih =>
    cases h with
    | comment hplain hrest => exact comment hplain (ih hrest fun u hu => hts u (by simp [hu]))
    | entry he _ _ =>
      have hlabel := hts _ (List.mem_cons_self ..)
      exact absurd hlabel (by simp [Rose.label, he.entry])

theorem push_entry {e : ConfigEntry} (h : Formed b ts) (he : Printable e) :
    Formed b (ts ++ [.leaf e]) := by
  induction h with
  | nil b => exact entry he (nil true) (nil false)
  | comment hplain _ ih => exact comment hplain ih
  | entry he' hcs _ _ ih => exact entry he' hcs ih

theorem modify {i : ℕ} {u : ConfigTree} {g : ConfigTree → ConfigTree} (h : Formed b ts)
    (hu : ts[i]? = some u) (hentry : u.label.isComment = false) (hlabel : (g u).label = u.label)
    (hg : Formed true u.children → Formed true (g u).children) : Formed b (ts.modify i g) := by
  induction h generalizing i with
  | nil b => exact absurd hu (by simp)
  | @comment text ts hplain hrest ih =>
    cases i with
    | zero =>
      obtain rfl := Option.some.inj hu
      have hhash : ConfigEntry.isComment ⟨asBytes "#", text⟩ = true := rfl
      exact absurd (hhash.symm.trans hentry) (by simp)
    | succ i => exact comment hplain (ih hu)
  | entry he hcs hrest ihcs ih =>
    cases i with
    | zero =>
      obtain rfl := Option.some.inj hu
      rw [List.modify_zero_cons, ← Rose.node_eta (g _), hlabel]
      exact entry he (hg hcs) hrest
    | succ i => exact entry he hcs (ih hu)

end Formed

structure Loaded (s : Loader) : Prop where
  label : s.root.label = ⟨asBytes "root", []⟩
  formed : Formed true s.root.children
  entered : ∀ q, q <+: s.cfg → q ≠ [] → ∃ e, s.root.labelAt q = some e ∧ e.isComment = false
  fresh : ∀ i e, s.root.labelAt (s.cfg ++ [i]) = some e → e.isComment = true

theorem Formed.modify_path {f : ConfigTree → ConfigTree} (hf : ∀ u, (f u).label = u.label)
    {p : List ℕ} {t : ConfigTree} (h : Formed true t.children)
    (hp : ∀ q, q <+: p → q ≠ [] → ∃ e, t.labelAt q = some e ∧ e.isComment = false)
    (hu : ∀ u, t.subtree p = some u → Formed true u.children → Formed true (f u).children) :
    Formed true (t.modify f p).children := by
  induction p generalizing t with
  | nil => exact hu t rfl h
  | cons i p ih =>
    obtain ⟨e, he, hentry⟩ := hp [i] (by simp) (by simp)
    rw [Rose.labelAt_cons] at he
    obtain ⟨v, hv, hlabel⟩ := Option.bind_eq_some_iff.mp he
    obtain rfl := Option.some.inj hlabel
    refine h.modify hv hentry (Rose.label_modify hf p v) fun hformed => ih hformed (fun q hq hne => ?_) ?_
    · obtain ⟨e, he, hentry⟩ := hp (i :: q) (List.cons_prefix_cons.mpr ⟨rfl, hq⟩) (by simp)
      rw [Rose.labelAt_cons, hv] at he
      exact ⟨e, he, hentry⟩
    · intro u hsub
      refine hu u ?_
      rw [Rose.subtree, hv]
      exact hsub

namespace Loaded
variable {s s' : Loader}

theorem inside (h : Loaded s) : s.Inside := by
  rw [Loader.Inside]
  rcases eq_or_ne s.cfg [] with hnil | hne
  · rw [hnil]
    exact Option.some_ne_none _
  · obtain ⟨e, he, -⟩ := h.entered s.cfg (List.prefix_refl _) hne
    rw [he]
    simp

theorem comment (h : Loaded s) {text : Bytes} (htext : Plain text) :
    Loaded { s with root := (addChild s.root s.cfg (asBytes "#") text).1 } := by
  obtain ⟨n, -, hadded⟩ := addChild_spec h.inside (asBytes "#") text
  refine ⟨?_, ?_, fun q hq hne => ?_, fun i e he => ?_⟩
  · exact (Rose.label_modify (Rose.label_push _) s.cfg s.root).trans h.label
  · refine h.formed.modify_path (Rose.label_push _) h.entered fun u hu hformed => ?_
    refine hformed.push_comment (fun v hv => ?_) htext
    obtain ⟨i, hi, rfl⟩ := List.mem_iff_getElem.mp hv
    refine h.fresh i _ ?_
    rw [Rose.labelAt_append, hu, Option.bind_some, Rose.labelAt_cons, List.getElem?_eq_getElem hi]
    rfl
  · change ∃ e, (addChild s.root s.cfg _ text).1.labelAt q = some e ∧ e.isComment = false
    rw [hadded.old]
    · exact h.entered q hq hne
    · rintro rfl
      exact absurd hq.length_le (by simp)
  · change (addChild s.root s.cfg _ text).1.labelAt (s.cfg ++ [i]) = some e at he
    rw [hadded.labels] at he
    split_ifs at he with hi
    · obtain rfl := Option.some.inj he
      rfl
    · exact h.fresh i e he

theorem entry (h : Loaded s) {p : List ℕ} (hp : p <+: s.cfg) {key val : Bytes}
    (he : Printable ⟨key, val⟩) (indent : ℕ) :
    Loaded ⟨(addChild s.root p key val).1, (addChild s.root p key val).2, indent⟩ := by
  have hentered (q : List ℕ) (hq : q <+: p) := h.entered q (hq.trans hp)
  obtain ⟨n, hn, hadded⟩ := addChild_spec (labelAt_above hp h.inside) key val
  refine ⟨?_, ?_, fun q hq hne => ?_, fun i e hlabel => ?_⟩
  · exact (Rose.label_modify (Rose.label_push _) p s.root).trans h.label
  · exact h.formed.modify_path (Rose.label_push _) hentered fun u _ hformed => hformed.push_entry he
  · change q <+: (addChild s.root p key val).2 at hq
    change ∃ e, (addChild s.root p key val).1.labelAt q = some e ∧ e.isComment = false
    rw [hn] at hq
    rcases List.prefix_concat_iff.mp hq with rfl | hq
    · exact ⟨_, hadded.new, he.entry⟩
    · rw [hadded.old]
      · exact hentered q hq hne
      · rintro rfl
        exact absurd hq.length_le (by simp)
  · change (addChild s.root p key val).1.labelAt ((addChild s.root p key val).2 ++ [i]) = some e
      at hlabel
    rw [hn, hadded.old (by simp), List.append_assoc, List.singleton_append,
      hadded.free n [i] le_rfl] at hlabel
    exact absurd hlabel (by simp)

theorem step (h : Loaded s) {r : Reading} (hr : r.Good) (hstep : r.step s = some s') :
    Loaded s' := by
  cases r with
  | blank =>
    obtain rfl := Option.some.inj hstep
    exact h
  | comment text =>
    obtain rfl := Option.some.inj hstep
    exact h.comment hr
  | entry indent key val =>
    rw [Reading.step] at hstep
    split_ifs at hstep with hle
    obtain rfl := Option.some.inj hstep
    exact h.entry (climb_above _ _) hr indent
  | invalid => exact absurd hstep (by simp [Reading.step])

theorem run (h : Loaded s) {ls : List Bytes} (hls : ∀ l ∈ ls, Plain l)
    (hrun : loadLines s ls = some s') : Loaded s' := by
  induction ls generalizing s with
  | nil =>
    obtain rfl := Option.some.inj hrun
    exact h
  | cons l ls ih =>
    rw [loadLines_cons] at hrun
    obtain ⟨s1, h1, hrest⟩ := Option.bind_eq_some_iff.mp hrun
    exact ih (h.step (reading_good (hls l (by simp))) h1) (fun m hm => hls m (by simp [hm])) hrest

end Loaded

theorem climb_take (n : ℕ) (cfg : List ℕ) : climb n cfg = cfg.take (cfg.length - n) := by
  induction n generalizing cfg with
  | zero => rw [climb, Nat.sub_zero, List.take_length]
  | succ n ih =>
    rw [climb, ih]
    split_ifs with hne
    · rw [List.dropLast_eq_take, List.take_take, List.length_take]
      congr 1
      omega
    · rw [not_ne_iff.mp hne, List.take_nil, List.take_nil]

def Level (s : Loader) : Prop :=
  s.cfg = [] ∧ s.lastIndent = 0 ∨ s.cfg.length = s.lastIndent + 1

theorem Level.climb {s : Loader} (h : Level s) {p : List ℕ} (hp : p <+: s.cfg) :
    p.length ≤ s.lastIndent + 1 ∧ climb (s.lastIndent + 1 - p.length) s.cfg = p := by
  have hle := hp.length_le
  rcases h with ⟨hcfg, hlast⟩ | hlen
  · obtain rfl : p = [] := List.prefix_nil.mp (hcfg ▸ hp)
    rw [climb_take, hcfg, List.take_nil]
    exact ⟨Nat.zero_le _, rfl⟩
  · refine ⟨hlen ▸ hle, ?_⟩
    rw [climb_take, List.prefix_iff_eq_take.mp hp, List.length_take]
    congr 1
    omega

structure Reloaded (s : Loader) (p : List ℕ) (ts : List ConfigTree) (s' : Loader) : Prop where
  root : s'.root = s.root.modify (.push ts) p
  below : p <+: s'.cfg
  level : Level s'

namespace Reloaded
variable {s s1 s' : Loader} {p : List ℕ} {ts us : List ConfigTree}

theorem append (h1 : Reloaded s p ts s1) (h2 : Reloaded s1 p us s') :
    Reloaded s p (ts ++ us) s' := by
  refine ⟨?_, h2.below, h2.level⟩
  rw [h2.root, h1.root, Rose.modify_modify]
  exact congrArg (fun f => s.root.modify f p) (funext fun u => Rose.push_push ts us u)

theorem inside (h : Reloaded s p ts s') (hp : s.root.labelAt p ≠ none) :
    s'.root.labelAt p ≠ none := by
  rw [Rose.labelAt, ne_eq, Option.map_eq_none_iff] at hp ⊢
  rw [h.root, Rose.subtree_modify, Option.map_eq_none_iff]
  exact hp

theorem comment (hlevel : Level s) (text : Bytes) :
    Reloaded s s.cfg [.leaf ⟨asBytes "#", text⟩]
      { s with root := (addChild s.root s.cfg (asBytes "#") text).1 } :=
  ⟨rfl, List.prefix_refl _, hlevel⟩

theorem entry (hp : s.root.labelAt p ≠ none) {e : ConfigEntry} {cs : List ConfigTree}
    (h : Reloaded ⟨(addChild s.root p e.key e.val).1, (addChild s.root p e.key e.val).2, p.length⟩
      (addChild s.root p e.key e.val).2 cs s') : Reloaded s p [.node e cs] s' := by
  obtain ⟨u, hu⟩ := Rose.exists_subtree hp
  have hchild := addChild_path hu e.key e.val
  refine ⟨?_, ?_, h.level⟩
  · rw [h.root, hchild]
    change (s.root.modify (.push [.leaf e]) p).modify _ _ = _
    rw [Rose.modify_append, Rose.modify_modify]
    refine Rose.modify_congr fun v hv => ?_
    obtain rfl := Option.some.inj (hu.symm.trans hv)
    exact Rose.modify_push (.push cs) (.leaf e) u
  · have hbelow := h.below
    rw [hchild] at hbelow
    exact (List.prefix_append p _).trans hbelow

end Reloaded

theorem Formed.reload {b : Bool} {ts : List ConfigTree} (h : Formed b ts) (depth : ℕ) :
    ∃ ls, saveAll depth ts = joined ls ∧ (∀ l ∈ ls, Plain l) ∧
      ∀ s p, s.root.labelAt p ≠ none → p.length = depth → p <+: s.cfg → Level s →
        (b = true → s.cfg = p) → ∃ s', loadLines s ls = some s' ∧ Reloaded s p ts s' := by
  induction h generalizing depth with
  | nil b =>
    refine ⟨[], rfl, by simp, fun s p _ _ hp hlevel _ => ⟨s, rfl, ?_, hp, hlevel⟩⟩
    rw [Rose.modify_self Rose.push_nil]
  | @comment text ts hplain hrest ih =>
    obtain ⟨ls, hsave, hls, hload⟩ := ih depth
    refine ⟨printed depth ⟨asBytes "#", text⟩ :: ls, ?_, ?_, fun s p hp hlen hbelow hlevel hcfg => ?_⟩
    · have hleaf : save (depth + 1) (.leaf ⟨asBytes "#", text⟩) = [] := rfl
      rw [saveAll_printed, hleaf, hsave, List.append_nil, ← joined_append]
      rfl
    · simpa using ⟨plain_printed_comment depth hplain, hls⟩
    · obtain rfl := hcfg rfl
      have h1 := Reloaded.comment hlevel text
      obtain ⟨s', hrun, h2⟩ := hload _ _ (h1.inside hp) hlen h1.below h1.level fun _ => rfl
      refine ⟨s', ?_, h1.append h2⟩
      rw [loadLines_cons, reading_printed_comment]
      exact hrun
  | @entry b e cs ts he hcs hrest ihcs ih =>
    obtain ⟨lcs, hsavecs, hlcs, hloadcs⟩ := ihcs (depth + 1)
    obtain ⟨ls, hsave, hls, hload⟩ := ih depth
    refine ⟨printed depth e :: (lcs ++ ls), ?_, ?_, fun s p hp hlen hbelow hlevel _ => ?_⟩
    · have hnode : save (depth + 1) (.node e cs) = saveAll (depth + 1) cs := rfl
      rw [saveAll_printed, hnode, hsavecs, hsave, List.append_assoc, ← joined_append,
        ← joined_append]
      rfl
    · simpa [or_imp, forall_and] using ⟨plain_printed_entry depth he, hlcs, hls⟩
    · obtain rfl := hlen
      obtain ⟨hdeep, hclimb⟩ := hlevel.climb hbelow
      obtain ⟨n, hn, hadded⟩ := addChild_spec hp e.key e.val
      obtain ⟨s1, hruncs, h1⟩ := hloadcs
        ⟨(addChild s.root p e.key e.val).1, (addChild s.root p e.key e.val).2, p.length⟩
        (addChild s.root p e.key e.val).2 (by rw [hn, hadded.new]; simp) (by rw [hn]; simp)
        (List.prefix_refl _) (.inr (by simp [hn])) fun _ => rfl
      have h1 := Reloaded.entry hp h1
      obtain ⟨s', hrun, h2⟩ := hload s1 p (h1.inside hp) rfl h1.below h1.level (by simp)
      refine ⟨s', ?_, h1.append h2⟩
      rw [loadLines_cons, reading_printed_entry _ he, Reading.step, if_pos hdeep, hclimb,
        Option.bind_some, loadLines_append, hruncs]
      exact hrun

theorem loaded_start : Loaded start where
  label := rfl
  formed := .nil true
  entered _ hq hne := absurd (List.prefix_nil.mp hq) hne
  fresh i e he := absurd he (by simp [start, Rose.labelAt_leaf])

/-- A tree that was loaded from whole lines is loaded again from what `save` prints of it. -/
theorem save_load {text : Bytes} {t : ConfigTree} (hnul : 0 ∉ text)
    (hend : text = [] ∨ text.getLast? = some newline)
    (hshort : ∀ l ∈ lines text, l.length < CONFIG_MAX_LINE - 1)
    (hsaved : ∀ l ∈ lines (save 0 t), l.length < CONFIG_MAX_LINE - 1)
    (hload : load text = some t) :
    load (save 0 t) = some t ∧ (load (save 0 t)).map (save 0) = some (save 0 t) := by
  obtain ⟨ls, last, rfl, -, hfits⟩ := exists_fits hnul hshort
  obtain rfl : last = [] := by
    rcases List.eq_nil_or_concat' last with hnil | ⟨x, c, rfl⟩
    · exact hnil
    · rcases hend with hempty | hend
      · exact absurd hempty (by simp)
      · rw [← List.append_assoc, List.getLast?_concat] at hend
        obtain rfl := Option.some.inj hend
        exact absurd (List.mem_append_right x (List.mem_singleton_self _)) (hfits _ (by simp)).line
  rw [load_joined hfits, if_pos rfl] at hload
  obtain ⟨s, hrun, rfl⟩ := Option.map_eq_some_iff.mp hload
  have hplain : ∀ l ∈ ls, Plain l := fun l hl =>
    ⟨(hfits l (by simp [hl])).line, (hfits l (by simp [hl])).nul⟩
  have hloaded := loaded_start.run hplain hrun
  obtain ⟨ls', hsave, hplain', hreload⟩ := hloaded.formed.reload 0
  obtain ⟨s', hrun', hs'⟩ := hreload start [] (Option.some_ne_none _) rfl (List.prefix_refl _)
    (.inl ⟨rfl, rfl⟩) fun _ => rfl
  have hroot : s'.root = s.root := by
    rw [hs'.root, ← Rose.node_eta s.root, hloaded.label]
    rfl
  have hprint : save 0 s.root = joined ls' ++ [] := by
    rw [List.append_nil, ← hsave, ← Rose.node_eta s.root]
    rfl
  have hfits' : ∀ l ∈ ls' ++ [[]], Fits l := by
    have hnew : ∀ l ∈ ls' ++ [[]], Plain l := by
      simpa [or_imp, forall_and, Plain] using hplain'
    intro l hl
    refine ⟨(hnew l hl).1, (hnew l hl).2, hsaved l ?_⟩
    rw [hprint, lines_joined fun l hl => (hnew l hl).1]
    exact hl
  have hagain : load (save 0 s.root) = some s.root := by
    rw [hprint, load_joined hfits', if_pos rfl, hrun', Option.map_some, hroot]
  exact ⟨hagain, by rw [hagain]; rfl⟩

theorem save_load_nested : ∃ t, load (asBytes "\tk=1\n# c\n\t\tj:2\ni:\n") = some t ∧
    save 0 t = asBytes "k: 1\n\t# c\n\tj: 2\ni: \n" ∧ load (save 0 t) = some t := by
  have hmap : (load (asBytes "\tk=1\n# c\n\t\tj:2\ni:\n")).map (save 0) =
      some (asBytes "k: 1\n\t# c\n\tj: 2\ni: \n") := by decide
  obtain ⟨t, hload, hsave⟩ := Option.map_eq_some_iff.mp hmap
  have hsaved : ∀ l ∈ lines (save 0 t), l.length < CONFIG_MAX_LINE - 1 := by
    rw [hsave]
    decide
  exact ⟨t, hload, hsave, (save_load (by decide) (.inr (by decide)) (by decide) hsaved hload).1⟩

end ConfigTree
