import Spe.OptMeaning

/-!
# Config files

What is written to a config file.  A line is blank, a comment, the header of a section or a pair,
written with any number of spaces; its end is `\n` or `\r\n`, and the last one may lack it.
The entries of a file are its pairs, each under the last header before it or under
`global`.

On a file of such lines `spe_opt_create` leaves a list of options in which `spe_opt_string` finds
the entries of the file, exactly when no size computation of a turn wraps (`config_round_trip`):
a line that is long enough overruns the buffer that it is handed over to.
-/

namespace Spe

open Transition

/-- A line of a config file. -/
inductive ConfigLine
  | blank (pad : Bytes)
  | comment (pad text : Bytes)
  | header (before inner : Nat) (name : Bytes) (outer after : Nat)
  | pair (before : Nat) (key : Bytes) (left right : Nat) (val : Bytes) (after : Nat)

/-- A number of spaces. -/
def spaces (n : Nat) : Bytes := List.replicate n 32

namespace ConfigLine

/-- The text of a line. -/
def render : ConfigLine → Bytes
  | blank pad => pad
  | comment pad text => pad ++ 35 :: text
  | header before inner name outer after =>
      spaces before ++ (91 :: (spaces inner ++ name ++ spaces outer) ++ [93]) ++ spaces after
  | pair before key left right val after =>
      spaces before ++ (key ++ spaces left ++ 61 :: (spaces right ++ val)) ++ spaces after

/-- The section after a line. -/
def sectionAfter (cur : Bytes) : ConfigLine → Bytes
  | header _ _ name _ _ => name
  | _ => cur

/-- The entry of a line. -/
def entry (cur : Bytes) : ConfigLine → List Entry
  | pair _ key _ _ val _ => [⟨cur, key, val⟩]
  | _ => []

end ConfigLine

/-- The entries of a file. -/
def entriesOf (cur : Bytes) : List ConfigLine → List Entry
  | [] => []
  | l :: ls => l.entry cur ++ entriesOf (l.sectionAfter cur) ls

/-- A name or a value: not empty, without blanks at its ends, and without line ends, tabs,
NUL and `=`. -/
structure Part (max : Nat) (p : Bytes) : Prop where
  nonempty : p ≠ []
  fits : p.length ≤ max
  plain : ∀ c ∈ p, c ∉ ([0, 9, 10, 13, 61] : Bytes)
  first : p.head? ≠ some 32
  last : p.getLast? ≠ some 32

/-- The name of a section or a key. -/
structure Name (p : Bytes) : Prop extends Part 15 p where
  brackets : ∀ c ∈ p, c ∉ ([91, 93] : Bytes)
  hash : p.head? ≠ some 35

/-- A line that is written as the format says. -/
def ConfigLine.Valid : ConfigLine → Prop
  | blank pad => ∀ c ∈ pad, c ∈ ([32, 9, 13] : Bytes)
  | comment pad text =>
      (∀ c ∈ pad, c ∈ ([32, 9, 13] : Bytes)) ∧ ∀ c ∈ text, c ∉ ([0, 10] : Bytes)
  | header _ _ name _ _ => Name name
  | pair _ key _ _ val _ => Name key ∧ Part 127 val

/-- A file: its lines with their ends (`true` is `\r\n`), and what stands behind the last
line end. -/
structure ConfigFile where
  lines : List (ConfigLine × Bool)
  last : Option ConfigLine

namespace ConfigFile

/-- A line up to the `\n`. -/
def body (l : ConfigLine × Bool) : Bytes := l.1.render ++ if l.2 then [13] else []

/-- The bytes of a file. -/
def text (file : ConfigFile) : Bytes :=
  (file.lines.flatMap fun l => body l ++ [10]) ++ (file.last.map ConfigLine.render).getD []

/-- All lines of a file. -/
def allLines (file : ConfigFile) : List ConfigLine :=
  file.lines.map Prod.fst ++ file.last.toList

/-- All lines are written as the format says. -/
def Valid (file : ConfigFile) : Prop := ∀ l ∈ file.allLines, l.Valid

/-- The file is a way to write the entries. -/
structure Writes (file : ConfigFile) (entries : List Entry) : Prop where
  valid : file.Valid
  entries : entriesOf global.1 file.allLines = entries

end ConfigFile

/-- The bytes that are not in a token. -/
theorem strchr_eq_false {token : CStr} {c : UInt8} :
    strchr token c = false ↔ c ≠ 0 ∧ c ∉ token.1 := by
  simp [strchr]

/-- The bytes that are in a token. -/
theorem strchr_of_mem {token : CStr} {c : UInt8} (h : c ∈ token.1) : strchr token c = true := by
  simp [strchr, h]

/-- Spaces are in a token that has one. -/
theorem spaces_in {token : CStr} (h : 32 ∈ token.1) (n : Nat) :
    ∀ c ∈ spaces n, strchr token c = true := by
  intro c hc
  obtain rfl := List.eq_of_mem_replicate hc
  exact strchr_of_mem h

/-- Only spaces are in spaces. -/
theorem not_mem_spaces {c : UInt8} (h : c ≠ 32) (n : Nat) : c ∉ spaces n :=
  fun hmem => h (List.eq_of_mem_replicate hmem)

/-- Spaces are blank. -/
theorem spaces_blank (n : Nat) : ∀ c ∈ spaces n, c ∈ ([32, 9, 13] : Bytes) := by
  intro c hc
  rw [List.eq_of_mem_replicate hc]
  exact List.mem_cons_self

/-- The bytes that a part leaves out. -/
theorem Part.notMem {max : Nat} {p : Bytes} (hp : Part max p) {c : UInt8}
    (hc : c ∈ ([0, 9, 10, 13, 61] : Bytes)) : c ∉ p := fun hmem => hp.plain c hmem hc

/-- The ends of a part stay when it is trimmed with a token that shares only the space
with it. -/
theorem Part.ends {max : Nat} {p : Bytes} (hp : Part max p) {token : CStr}
    (htoken : ∀ c ∈ p, c ≠ 32 → c ∉ token.1) :
    ∃ first last, p.head? = some first ∧ p.getLast? = some last ∧
      strchr token first = false ∧ strchr token last = false := by
  have hend : ∀ c ∈ p, c ≠ 32 → strchr token c = false := by
    intro c hc hspace
    exact strchr_eq_false.mpr ⟨fun hzero => hp.plain c hc (by simp [hzero]), htoken c hc hspace⟩
  have hfirst := List.head?_eq_some_head hp.nonempty
  have hlast := List.getLast?_eq_some_getLast hp.nonempty
  refine ⟨_, _, hfirst, hlast, ?_, ?_⟩
  · exact hend _ (List.head_mem hp.nonempty) fun h => hp.first (hfirst.trans (by rw [h]))
  · exact hend _ (List.getLast_mem hp.nonempty) fun h => hp.last (hlast.trans (by rw [h]))

/-- The tokens of the loop share only the space with a part. -/
theorem Part.notLineBlank {max : Nat} {p : Bytes} (hp : Part max p) :
    ∀ c ∈ p, c ≠ 32 → c ∉ lineBlank.1 := by
  intro c hc hspace hmem
  have hplain := hp.plain c hc
  simp only [lineBlank, List.mem_cons, List.not_mem_nil, or_false] at hmem hplain
  tauto

theorem Part.notSpace {max : Nat} {p : Bytes} (_hp : Part max p) :
    ∀ c ∈ p, c ≠ 32 → c ∉ space.1 := by
  intro c _ hspace hmem
  exact hspace (List.mem_singleton.mp hmem)

/-- A part in spaces. -/
theorem Part.trimmed_spaces {max : Nat} {p : Bytes} (hp : Part max p) {token : CStr}
    (htoken : ∀ c ∈ p, c ≠ 32 → c ∉ token.1) {left right : Bytes}
    (hleft : ∀ c ∈ left, strchr token c = true) (hright : ∀ c ∈ right, strchr token c = true) :
    trimmed token (left ++ p ++ right) = p := by
  obtain ⟨first, last, hfirst, hlast, hf, hl⟩ := hp.ends htoken
  exact trimmed_padded hleft hright hfirst hlast hf hl

namespace ConfigLine

/-- What trimming leaves of a line. -/
def core : ConfigLine → Bytes
  | blank _ => []
  | comment _ text => 35 :: text
  | header _ inner name outer _ => 91 :: (spaces inner ++ name ++ spaces outer) ++ [93]
  | pair _ key left right val _ => key ++ spaces left ++ 61 :: (spaces right ++ val)

/-- The blanks before and behind it. -/
def left : ConfigLine → Bytes
  | blank pad => pad
  | comment pad _ => pad
  | header before _ _ _ _ => spaces before
  | pair before _ _ _ _ _ => spaces before

def right : ConfigLine → Bytes
  | blank _ => []
  | comment _ _ => []
  | header _ _ _ _ after => spaces after
  | pair _ _ _ _ _ after => spaces after

theorem render_eq (l : ConfigLine) : l.render = l.left ++ l.core ++ l.right := by
  cases l <;> simp [render, left, core, right]

/-- No NUL and no line end stands in the core of a line. -/
theorem core_clean {l : ConfigLine} (hl : l.Valid) {c : UInt8} (hc : c ∈ ([0, 10] : Bytes)) :
    c ∉ l.core := by
  have hplain : c ∈ ([0, 9, 10, 13, 61] : Bytes) := by
    simp only [List.mem_cons, List.not_mem_nil, or_false] at hc ⊢
    rcases hc with rfl | rfl <;> simp
  have hne : c ≠ 32 ∧ c ≠ 35 ∧ c ≠ 61 ∧ c ≠ 91 ∧ c ≠ 93 := by
    simp only [List.mem_cons, List.not_mem_nil, or_false] at hc
    rcases hc with rfl | rfl <;> decide
  have hspaces : ∀ n, c ∉ spaces n := not_mem_spaces hne.1
  cases l with
  | blank pad => exact List.not_mem_nil
  | comment pad text =>
      have htext : c ∉ text := fun hmem => hl.2 c hmem hc
      simp [core, hne, htext]
  | header before inner name outer after =>
      have hname : c ∉ name := hl.toPart.notMem hplain
      simp [core, hne, hname, hspaces]
  | pair before key left right val after =>
      have hkey : c ∉ key := hl.1.toPart.notMem hplain
      have hval : c ∉ val := hl.2.notMem hplain
      simp [core, hne, hkey, hval, hspaces]

/-- What stands around the core is blank. -/
theorem left_blank {l : ConfigLine} (hl : l.Valid) : ∀ c ∈ l.left, c ∈ ([32, 9, 13] : Bytes) := by
  cases l with
  | blank pad => exact hl
  | comment pad text => exact hl.1
  | header before inner name outer after => exact spaces_blank before
  | pair before key left right val after => exact spaces_blank before

theorem right_blank (l : ConfigLine) : ∀ c ∈ l.right, c ∈ ([32, 9, 13] : Bytes) := by
  cases l with
  | blank pad => exact fun c hc => absurd hc List.not_mem_nil
  | comment pad text => exact fun c hc => absurd hc List.not_mem_nil
  | header before inner name outer after => exact spaces_blank after
  | pair before key left right val after => exact spaces_blank after

/-- No NUL and no line end stands in the text of a line. -/
theorem render_clean {l : ConfigLine} (hl : l.Valid) {c : UInt8} (hc : c ∈ ([0, 10] : Bytes)) :
    c ∉ l.render := by
  have hblank : c ∉ ([32, 9, 13] : Bytes) := by
    simp only [List.mem_cons, List.not_mem_nil, or_false] at hc
    rcases hc with rfl | rfl <;> decide
  rw [render_eq, List.mem_append, List.mem_append, not_or, not_or]
  exact ⟨⟨fun h => hblank (left_blank hl c h), core_clean hl hc⟩,
    fun h => hblank (right_blank l c h)⟩

/-- A line with its line end. -/
structure Written (l : ConfigLine) (bs : Bytes) : Prop where
  valid : l.Valid
  text : ∃ tail, bs = l.render ++ tail ∧ ∀ c ∈ tail, c ∈ ([13, 10] : Bytes)

/-- The blanks around the core of a line, the line end among them. -/
theorem Written.padded {l : ConfigLine} {bs : Bytes} (h : l.Written bs) :
    ∃ left right, bs = left ++ l.core ++ right ∧
      (∀ c ∈ left, strchr lineBlank c = true) ∧ ∀ c ∈ right, strchr lineBlank c = true := by
  obtain ⟨tail, htext, htail⟩ := h.text
  have hin : ∀ c, c ∈ ([32, 9, 13] : Bytes) ∨ c ∈ ([13, 10] : Bytes) →
      strchr lineBlank c = true := by
    intro c hc
    refine strchr_of_mem ?_
    simp only [lineBlank, List.mem_cons, List.not_mem_nil, or_false] at hc ⊢
    tauto
  refine ⟨l.left, l.right ++ tail, by rw [htext, render_eq, List.append_assoc], ?_, ?_⟩
  · exact fun c hc => hin c (Or.inl (left_blank h.valid c hc))
  · intro c hc
    rcases List.mem_append.mp hc with hc | hc
    · exact hin c (Or.inl (right_blank l c hc))
    · exact hin c (Or.inr (htail c hc))

/-- What a line means. -/
def meaning : ConfigLine → LineMeaning
  | blank _ => .skip
  | comment _ _ => .skip
  | header _ _ name _ _ => .header name
  | pair _ key _ _ val _ => .pair key val

/-- A line with its blanks around a core that begins and ends with other bytes. -/
theorem Written.core_trimmed {l : ConfigLine} {bs : Bytes} (h : l.Written bs) {first last : UInt8}
    (hfirst : l.core.head? = some first) (hlast : l.core.getLast? = some last)
    (hf : strchr lineBlank first = false) (hl : strchr lineBlank last = false) :
    Spe.trimmed lineBlank bs = l.core := by
  obtain ⟨left, right, rfl, hleft, hright⟩ := h.padded
  exact trimmed_padded hleft hright hfirst hlast hf hl

/-- A blank line. -/
theorem Written.blank {pad bs : Bytes} (h : (blank pad).Written bs) :
    Spe.trimmed lineBlank bs = [] := by
  obtain ⟨left, right, rfl, hleft, hright⟩ := h.padded
  refine trimmed_blank ?_
  intro c hc
  rw [core, List.append_nil, List.mem_append] at hc
  exact hc.elim (hleft c) (hright c)

/-- What is left of a comment begins with its mark. -/
theorem Written.comment {pad text bs : Bytes} (h : (comment pad text).Written bs) :
    (Spe.trimmed lineBlank bs).head? = some 35 := by
  obtain ⟨left, right, rfl, hleft, hright⟩ := h.padded
  have hmark : strchr lineBlank 35 = false := by decide
  unfold Spe.trimmed
  have hdrop : (left ++ (core (.comment pad text) ++ right)).dropWhile (strchr lineBlank) =
      core (.comment pad text) ++ right := by
    refine Strip.dropWhile_of_first hleft ?_
    intro c hc
    obtain rfl := Option.some.inj hc
    exact hmark
  rw [List.append_assoc, hdrop]
  obtain ⟨more, hmore⟩ :=
    List.rdropWhile_prefix (strchr lineBlank) (core (.comment pad text) ++ right)
  cases hrest : List.rdropWhile (strchr lineBlank) (core (.comment pad text) ++ right) with
  | nil =>
      have hall := List.rdropWhile_eq_nil_iff.mp hrest 35 (by simp [core])
      rw [hmark] at hall
      cases hall
  | cons c rest =>
      rw [hrest] at hmore
      exact congrArg some (List.cons.inj hmore).1

/-- A header names its section. -/
theorem Written.header {before inner outer after : Nat} {name bs : Bytes}
    (h : (header before inner name outer after).Written bs) : lineMeans bs = .header name := by
  have hname : Name name := h.valid
  have hlast : (ConfigLine.header before inner name outer after).core.getLast? = some 93 :=
    List.getLast?_concat
  have htoken : ∀ c ∈ name, c ≠ 32 → c ∉ headerBlank.1 := by
    intro c hc hspace hmem
    have hplain := hname.plain c hc
    have hbrackets := hname.brackets c hc
    simp only [headerBlank, List.mem_cons, List.not_mem_nil, or_false] at hmem hplain hbrackets
    tauto
  have hleft : ∀ c ∈ 91 :: spaces inner, strchr headerBlank c = true := by
    intro c hc
    rcases List.mem_cons.mp hc with rfl | hc
    · decide
    · exact spaces_in (by simp [headerBlank]) inner c hc
  have hright : ∀ c ∈ spaces outer ++ [93], strchr headerBlank c = true := by
    intro c hc
    rcases List.mem_append.mp hc with hc | hc
    · exact spaces_in (by simp [headerBlank]) outer c hc
    · obtain rfl := List.mem_singleton.mp hc
      decide
  have htrim := hname.toPart.trimmed_spaces htoken hleft hright
  have hshape : (ConfigLine.header before inner name outer after).core =
      91 :: spaces inner ++ name ++ (spaces outer ++ [93]) := by simp [core]
  rw [← hshape] at htrim
  unfold lineMeans coreMeans
  rw [h.core_trimmed rfl hlast (by decide) (by decide), if_neg (by simp [core]),
    if_pos ⟨rfl, hlast⟩]
  dsimp only
  rw [htrim, if_neg hname.nonempty]

/-- The pieces of a pair. -/
theorem equalsPieces_pair {key val : Bytes} (left right : Nat) (hkey : Name key)
    (hval : Part 127 val) :
    equalsPieces (key ++ spaces left ++ 61 :: (spaces right ++ val)) =
      [key ++ spaces left, spaces right ++ val] := by
  have hspaces : ∀ n, (61 : UInt8) ∉ spaces n := not_mem_spaces (by decide)
  have hnul : (0 : UInt8) ∉ key ++ spaces left := by
    have hzero : (0 : UInt8) ∉ key := hkey.toPart.notMem (by simp)
    simp [hzero, not_mem_spaces (by decide : (0 : UInt8) ≠ 32)]
  have hkeq : (61 : UInt8) ∉ cstr (key ++ spaces left) := by
    have hplain : (61 : UInt8) ∉ key := hkey.toPart.notMem (by simp)
    refine fun hmem => absurd ((List.takeWhile_prefix _).subset hmem) ?_
    simp [hplain, hspaces]
  have hveq : (61 : UInt8) ∉ cstr (spaces right ++ val) := by
    have hplain : (61 : UInt8) ∉ val := hval.notMem (by simp)
    refine fun hmem => absurd ((List.takeWhile_prefix _).subset hmem) ?_
    simp [hplain, hspaces]
  unfold equalsPieces seenPieces
  rw [seenSplit_append _ (by decide) hnul, seenSplit_whole hkeq, seenSplit_whole hveq]
  simp [nonEmpty, hkey.nonempty, hval.nonempty]

/-- A pair names its key and its value. -/
theorem Written.pair {before left right after : Nat} {key val bs : Bytes}
    (h : (pair before key left right val after).Written bs) : lineMeans bs = .pair key val := by
  obtain ⟨hkey, hval⟩ : Name key ∧ Part 127 val := h.valid
  obtain ⟨first, _, hfirst, _, hf, _⟩ := hkey.toPart.ends hkey.toPart.notLineBlank
  obtain ⟨_, last, _, hlast, _, hl⟩ := hval.ends hval.notLineBlank
  have hhead : (ConfigLine.pair before key left right val after).core.head? = some first := by
    simp [core, hfirst]
  have hend : (ConfigLine.pair before key left right val after).core.getLast? = some last := by
    rw [core, ← List.cons_append, ← List.append_assoc, List.getLast?_append, hlast]
    rfl
  have hmem : first ∈ key := List.mem_of_mem_head? hfirst
  have hmark : first ≠ 35 := fun heq => hkey.hash (heq ▸ hfirst)
  have hbracket : first ≠ 91 := fun heq => hkey.brackets first hmem (by simp [heq])
  have hsplits : Splits (ConfigLine.pair before key left right val after).core := by
    unfold Splits
    rw [hhead]
    simp [core, hmark, hbracket]
  have hktrim : Spe.trimmed space ([] ++ key ++ spaces left) = key :=
    hkey.toPart.trimmed_spaces hkey.toPart.notSpace (by simp)
      (spaces_in (by simp [space]) left)
  have hvtrim : Spe.trimmed space (spaces right ++ val ++ []) = val :=
    hval.trimmed_spaces hval.notSpace (spaces_in (by simp [space]) right) (by simp)
  rw [List.nil_append] at hktrim
  rw [List.append_nil] at hvtrim
  unfold lineMeans
  rw [h.core_trimmed hhead hend hf hl, coreMeans_pieces hsplits, core,
    equalsPieces_pair left right hkey hval, List.map_cons, List.map_singleton, hktrim, hvtrim]
  rfl

/-- **Lines.**  Every line of the format is read as what it means. -/
theorem Written.means {l : ConfigLine} {bs : Bytes} (h : l.Written bs) :
    lineMeans bs = l.meaning := by
  cases l with
  | blank pad =>
      unfold lineMeans coreMeans
      rw [if_pos (Or.inl h.blank)]
      rfl
  | comment pad text =>
      unfold lineMeans coreMeans
      rw [if_pos (Or.inr h.comment)]
      rfl
  | header before inner name outer after => exact h.header
  | pair before key left right val after => exact h.pair

/-- A line of the format is not bad; its section and its entry are those of its meaning. -/
theorem meaning_spec (l : ConfigLine) (cur : Bytes) :
    l.meaning ≠ .bad ∧ l.meaning.sectionAfter cur = l.sectionAfter cur ∧
      l.meaning.entry cur = l.entry cur := by
  cases l <;> exact ⟨by rintro ⟨⟩, rfl, rfl⟩

end ConfigLine

/-- A line with its end holds no other `\n`, and no NUL. -/
theorem ConfigFile.body_clean {l : ConfigLine × Bool} (hl : l.1.Valid) {c : UInt8}
    (hc : c ∈ ([0, 10] : Bytes)) : c ∉ ConfigFile.body l := by
  unfold ConfigFile.body
  have hrender := ConfigLine.render_clean hl hc
  have hcr : c ≠ 13 := by
    rintro rfl
    simp at hc
  split <;> simp [hrender, hcr]

/-- No NUL stands in a file. -/
theorem ConfigFile.text_clean {file : ConfigFile} (hfile : file.Valid) :
    (0 : UInt8) ∉ file.text := by
  unfold ConfigFile.text
  rw [List.mem_append, not_or]
  constructor
  · intro hmem
    obtain ⟨l, hl, hin⟩ := List.mem_flatMap.mp hmem
    have hvalid : l.1.Valid := hfile l.1 (List.mem_append_left _ (List.mem_map_of_mem hl))
    have hbody := ConfigFile.body_clean hvalid (c := 0) (by simp)
    simp [hbody] at hin
  · cases hlast : file.last with
    | none => exact List.not_mem_nil
    | some l =>
        have hvalid : l.Valid := hfile l (List.mem_append_right _ (by simp [hlast]))
        exact ConfigLine.render_clean hvalid (by simp)

/-- **Files.**  The lines of a file of the format mean what they are written for. -/
theorem ConfigFile.means {lines : List (ConfigLine × Bool)} {last : Option ConfigLine}
    (hvalid : (ConfigFile.mk lines last).Valid) (cur : Bytes) :
    entriesFrom cur (linesOf (ConfigFile.mk lines last).text) =
        entriesOf cur (ConfigFile.mk lines last).allLines ∧
      (∀ line ∈ linesOf (ConfigFile.mk lines last).text, lineMeans line ≠ .bad) ∧
      (linesOf (ConfigFile.mk lines last).text).length = lines.length + 1 := by
  induction lines generalizing cur with
  | nil =>
      -- without a last line a blank one stands there
      obtain ⟨l, hl, htext, hentries⟩ : ∃ l : ConfigLine, l.Valid ∧
          (ConfigFile.mk [] last).text = l.render ∧
          entriesOf cur (ConfigFile.mk [] last).allLines = l.entry cur := by
        cases last with
        | none => exact ⟨.blank [], fun c hc => absurd hc List.not_mem_nil, rfl, rfl⟩
        | some l => exact ⟨l, hvalid l (by simp [ConfigFile.allLines]), rfl, List.append_nil _⟩
      have hwritten : l.Written l.render :=
        ⟨hl, [], (List.append_nil _).symm, fun c hc => absurd hc List.not_mem_nil⟩
      have hlines : linesOf (ConfigFile.mk [] last).text = [l.render] := by
        rw [htext]
        exact linesOf_last (ConfigLine.render_clean hl (by simp))
      obtain ⟨hok, _, hentry⟩ := l.meaning_spec cur
      rw [hlines, hentries, List.forall_mem_singleton, hwritten.means, entriesFrom, entriesFrom,
        hwritten.means, hentry, List.append_nil]
      exact ⟨rfl, hok, rfl⟩
  | cons l lines ih =>
      have hl : l.1.Valid := hvalid l.1 (by simp [ConfigFile.allLines])
      have hrest : (ConfigFile.mk lines last).Valid :=
        fun l' hl' => hvalid l' (List.mem_cons_of_mem _ hl')
      have htext : (ConfigFile.mk (l :: lines) last).text =
          ConfigFile.body l ++ 10 :: (ConfigFile.mk lines last).text := by
        simp [ConfigFile.text]
      have hwritten : l.1.Written (ConfigFile.body l) := by
        refine ⟨hl, if l.2 then [13] else [], rfl, ?_⟩
        split <;> simp
      obtain ⟨hok, hsection, hentry⟩ := l.1.meaning_spec cur
      obtain ⟨hentries, hreadable, hlen⟩ := ih hrest (l.1.sectionAfter cur)
      rw [htext, linesOf_line _ (ConfigFile.body_clean hl (by simp)), List.forall_mem_cons,
        entriesFrom, hwritten.means, hsection, hentry, hentries, List.length_cons, hlen]
      exact ⟨rfl, ⟨hok, hreadable⟩, rfl⟩

/-- A part fits its array. -/
theorem Part.cutTo_eq {n : Nat} {p : Bytes} (hp : Part (n - 1) p) (hn : 0 < n) :
    cutTo n p = p :=
  cutTo_of_fits (hp.notMem (by simp)) (Nat.lt_of_le_of_lt hp.fits (Nat.sub_one_lt_of_lt hn))

/-- The entries of lines of the format fit their arrays. -/
theorem entriesOf_cut {cur : Bytes} {ls : List ConfigLine} (hcur : cutTo SEC_MAXLEN cur = cur)
    (hls : ∀ l ∈ ls, l.Valid) : (entriesOf cur ls).map Entry.cut = entriesOf cur ls := by
  induction ls generalizing cur with
  | nil => rfl
  | cons l ls ih =>
      rw [List.forall_mem_cons] at hls
      obtain ⟨hl, hls⟩ := hls
      have hentry : (l.entry cur).map Entry.cut = l.entry cur := by
        cases l with
        | pair before key left right val after =>
            obtain ⟨hkey, hval⟩ : Name key ∧ Part 127 val := hl
            have hk : cutTo KEY_MAXLEN key = key := hkey.toPart.cutTo_eq (by decide)
            have hv : cutTo VAL_MAXLEN val = val := hval.cutTo_eq (by decide)
            have hcut : Entry.cut ⟨cur, key, val⟩ = ⟨cur, key, val⟩ := by
              unfold Entry.cut
              rw [hcur, hk, hv]
            exact congrArg (fun e => [e]) hcut
        | _ => rfl
      have hsection : cutTo SEC_MAXLEN (l.sectionAfter cur) = l.sectionAfter cur := by
        cases l with
        | header before inner name outer after =>
            have hname : Name name := hl
            exact hname.toPart.cutTo_eq (by decide)
        | _ => exact hcur
      rw [entriesOf, List.map_append, hentry, ih hsection hls]

/-- A file of short lines. -/
theorem ConfigFile.short {lines : List (ConfigLine × Bool)}
    (hvalid : (ConfigFile.mk lines none).Valid)
    (hlines : ∀ l ∈ lines, (ConfigFile.body l).length + 1 ≤ LINE_SHORT) :
    ShortLines (ConfigFile.mk lines none).text := by
  induction lines with
  | nil =>
      have hnil : linesOf (ConfigFile.mk [] none).text = [[]] := rfl
      unfold ShortLines
      rw [hnil, withEnds, List.forall_mem_singleton]
      exact Nat.zero_le _
  | cons l lines ih =>
      have hl : l.1.Valid := hvalid l.1 (by simp [ConfigFile.allLines])
      have htext : (ConfigFile.mk (l :: lines) none).text =
          ConfigFile.body l ++ 10 :: (ConfigFile.mk lines none).text := by
        simp [ConfigFile.text]
      rw [List.forall_mem_cons] at hlines
      rw [htext, shortLines_line _ (ConfigFile.body_clean hl (by simp))]
      exact ⟨hlines.1, ih (fun l' hl' => hvalid l' (List.mem_cons_of_mem _ hl')) hlines.2⟩

/-- Every list of entries can be written, each under a header of its own, and on short lines. -/
theorem exists_writes {entries : List Entry} (h : ∀ e ∈ entries,
    Name e.sec ∧ Name e.key ∧ Part 127 e.val) :
    ∃ file : ConfigFile, file.Writes entries ∧ ShortLines file.text := by
  have hlines : ∀ cur, ∃ ls : List ConfigLine,
      (∀ l ∈ ls, l.Valid ∧ l.render.length + 1 ≤ LINE_SHORT) ∧ entriesOf cur ls = entries := by
    induction entries with
    | nil => exact fun cur => ⟨[], fun l hl => absurd hl List.not_mem_nil, rfl⟩
    | cons e entries ih =>
        intro cur
        obtain ⟨hsec, hkey, hval⟩ := h e List.mem_cons_self
        obtain ⟨ls, hls, hentries⟩ := ih (fun e he => h e (List.mem_cons_of_mem _ he)) e.sec
        refine ⟨.header 0 0 e.sec 0 0 :: .pair 0 e.key 1 1 e.val 0 :: ls, ?_, ?_⟩
        · rw [List.forall_mem_cons, List.forall_mem_cons]
          have hs := hsec.fits
          have hk := hkey.fits
          have hv := hval.fits
          refine ⟨⟨hsec, ?_⟩, ⟨⟨hkey, hval⟩, ?_⟩, hls⟩
          · simp only [ConfigLine.render, spaces, List.length_append, List.length_cons,
              List.length_replicate, List.length_nil, LINE_SHORT]
            omega
          · simp only [ConfigLine.render, spaces, List.length_append, List.length_cons,
              List.length_replicate, LINE_SHORT]
            omega
        · exact congrArg (List.cons e) hentries
  obtain ⟨ls, hls, hentries⟩ := hlines global.1
  have hall : (ConfigFile.mk (ls.map fun l => (l, false)) none).allLines = ls := by
    simp [ConfigFile.allLines, Function.comp_def]
  have hvalid : (ConfigFile.mk (ls.map fun l => (l, false)) none).Valid := by
    intro l hl
    rw [hall] at hl
    exact (hls l hl).1
  refine ⟨⟨ls.map fun l => (l, false), none⟩, ⟨hvalid, ?_⟩, ConfigFile.short hvalid ?_⟩
  · rw [hall]
    exact hentries
  · rw [List.forall_mem_map]
    intro l hl
    have hbody : ConfigFile.body (l, false) = l.render := List.append_nil _
    rw [hbody]
    exact (hls l hl).2

/-- On a file that writes a list of entries, `spe_opt_create` leaves these in the options, and it
returns exactly when no size computation of a turn wraps. -/
theorem optCreate_writes {file : ConfigFile} {entries : List Entry} {envs : List LineEnv}
    (hfile : file.Writes entries) (hgood : ∀ env ∈ envs, env.Good) :
    (∀ ok options,
      optCreate (some Io.create) (some .create) ⟨file.text, 0⟩ [] envs = some (ok, options) →
      ok = true ∧ options.map OptEntry.view = entries) ∧
    (file.lines.length < envs.length → (∀ env ∈ envs, file.text.length < deliveries env.cuts) →
      ((optCreate (some Io.create) (some .create) ⟨file.text, 0⟩ [] envs).isSome ↔
        ∀ t ∈ fileTurns file.text [] envs, t.Defined)) := by
  have hclear := endsClear_of_clean (ConfigFile.text_clean hfile.valid)
  obtain ⟨hentries, hreadable, hlen⟩ := ConfigFile.means hfile.valid global.1
  constructor
  · intro ok options hrun
    obtain ⟨haccepts, hview⟩ := optCreate_means hclear hgood hrun
    have hok := haccepts.mpr hreadable
    refine ⟨hok, (hview hok).trans ?_⟩
    unfold entriesIn
    rw [hentries, entriesOf_cut (by decide) hfile.valid, hfile.entries]
  · intro hlines hmany
    exact optCreate_returns_iff hclear hgood (hlen.trans_le hlines) hmany

/-- What a config file that writes a list of entries is for: `spe_opt_create` accepts it, and
then `spe_opt_string` finds the first entry of each section and key, and nothing else. -/
def ConfigFile.RoundTrip (file : ConfigFile) (entries : List Entry) (envs : List LineEnv) : Prop :=
  ∃ options, optCreate (some Io.create) (some .create) ⟨file.text, 0⟩ [] envs =
      some (true, options) ∧
    ∀ (sec : Option CStr) (key : CStr) (default : Option Bytes),
      optString options sec (some key) default =
        (lookup entries (sec.getD global).1 key.1).elim default fun entry => some entry.val

/-- **Config files.**  A file that writes a list of entries is read back, once there are enough
lines and reads, exactly when no size computation of a turn wraps; lines of at most 85899345
bytes are short enough for that. -/
theorem config_round_trip {file : ConfigFile} {entries : List Entry} {envs : List LineEnv}
    (hfile : file.Writes entries) (hgood : ∀ env ∈ envs, env.Good)
    (hlines : file.lines.length < envs.length)
    (hmany : ∀ env ∈ envs, file.text.length < deliveries env.cuts) :
    (file.RoundTrip entries envs ↔ ∀ t ∈ fileTurns file.text [] envs, t.Defined) ∧
    (ShortLines file.text → ∀ t ∈ fileTurns file.text [] envs, t.Defined) := by
  obtain ⟨hstored, hreturns⟩ := optCreate_writes hfile hgood
  constructor
  · rw [← hreturns hlines hmany]
    constructor
    · rintro ⟨options, hrun, _⟩
      rw [hrun]
      rfl
    · intro hsome
      obtain ⟨⟨ok, options⟩, hrun⟩ := Option.isSome_iff_exists.mp hsome
      obtain ⟨rfl, hview⟩ := hstored ok options hrun
      refine ⟨options, hrun, ?_⟩
      intro sec key default
      rw [optString_eq, hview]
  · intro hshort
    exact fileTurns_defined [] (endsClear_of_clean (ConfigFile.text_clean hfile.valid)) hshort hgood

/-- A file with a header, a comment, and a last line without its end. -/
def sampleFile : ConfigFile :=
  ⟨[(.header 0 1 [115] 0 0, true), (.comment [32] [33], false)], some (.pair 0 [107] 1 0 [118] 0)⟩

/-- What a line of it is read with. -/
def sampleEnv : LineEnv :=
  let fresh : Alloc := some fun _ => 0
  ⟨fresh, (.fail .eintr, fresh) :: List.replicate 20 (.deliver 2, fresh), true,
    fun _ => ⟨true, true, fresh⟩, true⟩

theorem sampleFile_writes : sampleFile.Writes [⟨[115], [107], [118]⟩] := by
  have hpart : ∀ c ∈ ([115, 107, 118] : Bytes), Name [c] := by
    intro c hc
    simp only [List.mem_cons, List.not_mem_nil, or_false] at hc
    rcases hc with rfl | rfl | rfl <;>
      exact ⟨⟨by decide, by decide, by simp, by decide, by decide⟩, by simp, by decide⟩
  refine ⟨?_, rfl⟩
  intro l hl
  simp only [sampleFile, ConfigFile.allLines, List.map_cons, List.map_nil, Option.toList_some,
    List.cons_append, List.nil_append, List.mem_cons, List.not_mem_nil, or_false] at hl
  rcases hl with rfl | rfl | rfl
  · exact hpart 115 (by decide)
  · exact ⟨by simp, by simp⟩
  · exact ⟨hpart 107 (by decide), ⟨by decide, by decide, by simp, by decide, by decide⟩⟩

theorem sampleEnv_good : sampleEnv.Good := by
  refine ⟨rfl, ?_, rfl, fun _ => ⟨rfl, rfl, rfl⟩, rfl⟩
  intro c hc
  rcases List.mem_cons.mp hc with rfl | hc
  · simp
  · obtain rfl := List.eq_of_mem_replicate hc
    simp

theorem config_round_trip_sample : sampleFile.RoundTrip [⟨[115], [107], [118]⟩]
    (List.replicate 3 sampleEnv) := by
  have hgood : ∀ env ∈ List.replicate 3 sampleEnv, env.Good := by
    intro env henv
    obtain rfl := List.eq_of_mem_replicate henv
    exact sampleEnv_good
  have hmany : ∀ env ∈ List.replicate 3 sampleEnv,
      sampleFile.text.length < deliveries env.cuts := by
    intro env henv
    obtain rfl := List.eq_of_mem_replicate henv
    decide
  obtain ⟨hround, hshort⟩ := config_round_trip sampleFile_writes hgood (by decide) hmany
  refine hround.mpr (hshort ?_)
  have hlines :
      linesOf sampleFile.text = [[91, 32, 115, 93, 13], [32, 35, 33], [107, 32, 61, 118]] := rfl
  unfold ShortLines
  rw [hlines]
  simp [withEnds, LINE_SHORT]

/-- A file whose only line is a comment. -/
def commentFile (text : Bytes) : ConfigFile := ⟨[], some (.comment [] text)⟩

/-- A comment of 171798691 bytes is read, and overruns the buffer that it is handed over to. -/
theorem config_round_trip_fails :
    ¬ ∀ (file : ConfigFile) (entries : List Entry) (envs : List LineEnv), file.Writes entries →
      (∀ env ∈ envs, env.Good) → file.lines.length < envs.length →
      (∀ env ∈ envs, file.text.length < deliveries env.cuts) → file.RoundTrip entries envs := by
  intro hall
  obtain ⟨text, htext⟩ : ∃ text : Bytes, text = List.replicate 171798690 35 := ⟨_, rfl⟩
  have hplain : ∀ c ∈ text, c = 35 := fun c hc => List.eq_of_mem_replicate (htext ▸ hc)
  have hlen : text.length = 171798690 := by rw [htext, List.length_replicate]
  have hfile : (commentFile text).Writes [] := by
    refine ⟨?_, rfl⟩
    intro l hl
    obtain rfl : l = .comment [] text := List.mem_singleton.mp hl
    refine ⟨fun c hc => absurd hc List.not_mem_nil, fun c hc => ?_⟩
    rw [hplain c hc]
    simp
  have hbytes : (commentFile text).text = 35 :: text := rfl
  obtain ⟨hgood, _, hmany⟩ := readsOf_enough (commentFile text).text
  have hline : (10 : UInt8) ∉ (commentFile text).text := by
    rw [hbytes]
    intro hmem
    rcases List.mem_cons.mp hmem with hmem | hmem
    · cases hmem
    · cases hplain 10 hmem
  have hone :
      readsOf (commentFile text).text = [readsFor ((commentFile text).text.length + 1)] := by
    unfold readsOf
    rw [linesOf_last hline]
    rfl
  have hlines : (commentFile text).lines.length < (readsOf (commentFile text).text).length := by
    rw [hone]
    exact Nat.one_pos
  obtain ⟨options, hrun, _⟩ := hall _ _ _ hfile hgood hlines hmany
  have hturns := ((optCreate_writes hfile hgood).2 hlines hmany).mp (by
    rw [hrun]
    rfl)
  rw [hone] at hturns hmany
  have hfirst := hturns _ List.mem_cons_self
  refine absurd hfirst
    (OptTurn.not_defined_of_long Io.ready_create (readsFor_good _) ?_ hline ?_ ?_)
  · exact hmany _ List.mem_cons_self
  · exact Nat.zero_le _
  · have hsize : (commentFile text).text.length = 171798691 := by
      rw [hbytes, List.length_cons, hlen]
    show 2 ^ 32 ≤ 25 * (0 + (commentFile text).text.length + 1)
    rw [hsize]
    decide

end Spe
