import Mathlib.Data.List.DropRight
import Ssdb.Library.Rose
import Ssdb.Util.Strings

namespace Strings

def isEmptyStr (str : Bytes) : Bool := str.all isspace

def ltrim (str : Bytes) : Bytes := str.dropWhile isspace

def rtrim (str : Bytes) : Bytes := str.rdropWhile isspace

def trim (str : Bytes) : Bytes := rtrim (ltrim str)

theorem trim_space (s : Bytes) {c : Byte} (hc : isspace c = true) : trim (s ++ [c]) = trim s := by
  rw [trim, trim, ltrim, ltrim, List.dropWhile_append]
  split_ifs with h
  · rw [List.isEmpty_iff.mp h, List.dropWhile_cons_of_pos hc]
    rfl
  · exact List.rdropWhile_concat_pos isspace _ c hc

theorem trim_nonspace (s : Bytes) {c : Byte} (hc : isspace c = false) :
    trim (s ++ [c]) = ltrim s ++ [c] := by
  have hkeep : ltrim (s ++ [c]) = ltrim s ++ [c] := by
    rw [ltrim, ltrim, List.dropWhile_append]
    split_ifs with h
    · rw [List.isEmpty_iff.mp h, List.dropWhile_cons_of_neg (by simp [hc])]
      rfl
    · rfl
  rw [trim, hkeep]
  exact List.rdropWhile_concat_neg isspace _ c (by simp [hc])

theorem trim_part (s : Bytes) : trim s <+: ltrim s := List.rdropWhile_prefix isspace _

theorem trim_longer (s : Bytes) {c : Byte} (hc : isspace c = false) : trim (s ++ [c]) ≠ trim s := by
  intro h
  have hle := (trim_part s).length_le
  rw [← h, trim_nonspace s hc, List.length_append, List.length_singleton] at hle
  omega

theorem head_ltrim {s x : Bytes} {c : Byte} (h : c :: x <+: ltrim s) : isspace c = false := by
  obtain ⟨y, hy⟩ := h
  have hhead := List.head?_dropWhile_not isspace s
  rw [ltrim] at hy
  rw [← hy] at hhead
  exact hhead

theorem ltrim_part {s x : Bytes} (h : x <+: ltrim s) : ltrim x = x := by
  cases x with
  | nil => rfl
  | cons c x => exact List.dropWhile_cons_of_neg (by simp [head_ltrim h])

theorem trim_trim (s : Bytes) : trim (trim s) = trim s := by
  have hleft : ltrim (trim s) = trim s := ltrim_part (trim_part s)
  rw [trim, hleft]
  exact List.rdropWhile_idempotent isspace _

theorem trim_subset (s : Bytes) : trim s ⊆ s := fun _ h =>
  (List.dropWhile_suffix isspace).subset ((trim_part s).subset h)

theorem trim_cons_space (s : Bytes) {c : Byte} (hc : isspace c = true) : trim (c :: s) = trim s := by
  rw [trim, ltrim, List.dropWhile_cons_of_pos hc]
  rfl

end Strings

structure ConfigEntry where
  key : Bytes
  val : Bytes
deriving DecidableEq, Repr

def ConfigEntry.isComment (e : ConfigEntry) : Bool := e.key.head? = some (Strings.charByte '#')

/-- A `Config` and all below it. Nodes are never moved, so that an address stands for a pointer,
and the length of the address for `depth`. -/
abbrev ConfigTree := Rose ConfigEntry

namespace ConfigTree
open Strings

def CONFIG_MAX_LINE : ℕ := 4096

def addChild (t : ConfigTree) (conf : List ℕ) (key val : Bytes) : ConfigTree × List ℕ :=
  let size := (t.subtree conf).elim 0 fun c => c.children.length
  (t.modify (.push [.leaf ⟨key, val⟩]) conf, conf ++ [size])

def findFrom (children : List ConfigTree) (key : Bytes) : ℕ → Option ℕ
  | 0 => none
  | i + 1 =>
    if (children[i]?.map fun c => c.label.key) = some key then some i
    else findFrom children key i

def findChild (t : ConfigTree) (conf : List ℕ) (key : Bytes) : Option (List ℕ) := do
  let c ← t.subtree conf
  let i ← findFrom c.children key c.children.length
  return conf ++ [i]

def isSeparator (c : Byte) : Bool := c = charByte '.' ∨ c = charByte '/'

/-- What `snprintf` writes into the buffer, without the zero byte. -/
def pathBuffer (key : Bytes) : Bytes := key.take (CONFIG_MAX_LINE - 1)

def buildChild (f : Bytes) (s : ConfigTree × List ℕ) : ConfigTree × List ℕ :=
  match findChild s.1 s.2 f with
  | none => addChild s.1 s.2 f []
  | some c => (s.1, c)

def buildFrom : Bytes → Bytes → ConfigTree × List ℕ → ConfigTree × List ℕ
  | f, [], s => buildChild f s
  | f, c :: fs, s =>
    if isSeparator c then buildFrom [] fs (buildChild f s) else buildFrom (f ++ [c]) fs s

def buildKeyPath (t : ConfigTree) (key : Bytes) : ConfigTree × List ℕ :=
  buildFrom [] (pathBuffer key) (t, [])

def set (t : ConfigTree) (key val : Bytes) : ConfigTree × List ℕ :=
  let (t, c) := buildKeyPath t key
  (t.modify (.relabel fun e => { e with val }) c, c)

def getFrom (t : ConfigTree) : Bytes → Bytes → List ℕ → Option (List ℕ)
  | f, [], conf => findChild t conf f
  | f, c :: fs, conf =>
    if isSeparator c then
      match findChild t conf f with
      | none => none
      | some conf => getFrom t [] fs conf
    else getFrom t (f ++ [c]) fs conf

def get (t : ConfigTree) (key : Bytes) : Option (List ℕ) := getFrom t [] (pathBuffer key) []

def isKvSeparator (ch : Byte) : Bool := ch = charByte '=' ∨ ch = charByte ':'

/-- What `fgets` stores in a buffer of `size` bytes, and what is left of the file. -/
def fgets (size : ℕ) (text : Bytes) : Bytes × Bytes :=
  let n := min (size - 1) ((text.takeWhile (· ≠ charByte '\n')).length + 1)
  (text.take n, text.drop n)

structure Loader where
  root : ConfigTree
  cfg : List ℕ
  lastIndent : ℕ

/-- `cfg = cfg->parent` unless `cfg` is the root, so many times. -/
def climb : ℕ → List ℕ → List ℕ
  | 0, cfg => cfg
  | n + 1, cfg => climb n (if cfg ≠ [] then cfg.dropLast else cfg)

/-- A round of the loop of `load`, which fails for an invalid line. The string in the buffer ends
at its first zero byte; one that begins with it is not considered. -/
def loadLine (s : Loader) (buf : Bytes) : Option Loader :=
  let buf := (buf.takeWhile (· ≠ 0)).dropLast
  if isEmptyStr buf then some s
  else
    let indent := (buf.takeWhile (· = charByte '\t')).length
    let key := buf.drop indent
    if key.head? = some (charByte '#') then
      some { s with root := (addChild s.root s.cfg (asBytes "#") (key.drop 1)).1 }
    else do
      let cfg ←
        if indent ≤ s.lastIndent then some (climb (s.lastIndent + 1 - indent) s.cfg)
        else if indent > s.lastIndent + 1 then none
        else some s.cfg
      if isspace (key.headD 0) then none
      let name := key.takeWhile (fun ch => !isKvSeparator ch)
      if name.length = key.length then none
      let (root, cfg) := addChild s.root cfg (trim name) (trim (key.drop (name.length + 1)))
      return ⟨root, cfg, indent⟩

def loadFrom : ℕ → Loader → Bytes → Option Loader
  | 0, s, _ => some s
  | fuel + 1, s, text =>
    if text = [] then some s
    else do
      let (buf, rest) := fgets CONFIG_MAX_LINE text
      loadFrom fuel (← loadLine s buf) rest

def load (text : Bytes) : Option ConfigTree :=
  (loadFrom text.length ⟨.leaf ⟨asBytes "root", []⟩, [], 0⟩ text).map Loader.root

def saveLine (e : ConfigEntry) : Bytes :=
  if e.isComment then charByte '#' :: e.val ++ [charByte '\n']
  else e.key ++ asBytes ": " ++ e.val ++ [charByte '\n']

mutual

def save (depth : ℕ) : ConfigTree → Bytes
  | .node _ children => saveAll depth children

def saveAll (depth : ℕ) : List ConfigTree → Bytes
  | [] => []
  | c :: rest =>
    List.replicate depth (charByte '\t') ++ saveLine c.label ++ save (depth + 1) c ++
      saveAll depth rest

end

end ConfigTree
