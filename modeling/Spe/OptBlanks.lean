import Spe.OptFormat
import Spe.Rpc

/-!
# Blanks in a config file

`spe_opt_create` trims with three tokens: a line and the inside of a section header lose spaces
and tabs, the key and the value of a pair lose spaces only.  So a file means the same after blanks
have been put in, taken out or exchanged, as long as the tabs next to the `=` of each pair stay
what they are (`PairEdit.Tidy`): a tab there belongs to the name or the value.  Between two `=`s
nothing may be put at all.  And the blanks must not make a line so long that a size wraps when it is
read (`TurnsDefined`).
-/

namespace Spe

/-- Spaces and tabs. -/
def Blank (bs : Bytes) : Prop := ∀ c ∈ bs, c ∈ ([32, 9] : Bytes)

/-- What may stand at the ends of a line: spaces, tabs, and the `\r` of a line end. -/
def LineEnd (bs : Bytes) : Prop := ∀ c ∈ bs, c ∈ ([32, 9, 13] : Bytes)

instance (bs : Bytes) : Decidable (Blank bs) :=
  List.decidableBAll (fun c => c ∈ ([32, 9] : Bytes)) bs

instance (bs : Bytes) : Decidable (LineEnd bs) :=
  List.decidableBAll (fun c => c ∈ ([32, 9, 13] : Bytes)) bs

/-- A pair with the blanks around its `=`, and the blanks that take their place. -/
structure PairEdit where
  key : Bytes
  val : Bytes
  before : Bytes
  behind : Bytes
  before' : Bytes
  behind' : Bytes

namespace PairEdit

/-- A pair. -/
def text (key before behind val : Bytes) : Bytes := key ++ before ++ 61 :: (behind ++ val)

variable (e : PairEdit)

/-- The line with the key and the value is neither a comment nor a header, and what stands around
the `=` between them is blank. -/
structure Valid : Prop where
  first : ∃ c, e.key.head? = some c ∧ strchr lineBlank c = false ∧ c ≠ 35
  last : ∃ c, e.val.getLast? = some c ∧ strchr lineBlank c = false
  header : ¬ (e.key.head? = some 91 ∧ e.val.getLast? = some 93)
  before : Blank e.before
  behind : Blank e.behind
  before' : Blank e.before'
  behind' : Blank e.behind'

/-- Two blanks that differ only in the spaces before a `=`. -/
def SpacesBefore (left left' : Bytes) : Prop :=
  ∃ tabs m n, left = tabs ++ spaces m ∧ left' = tabs ++ spaces n

/-- Two blanks that differ only in the spaces behind a `=`. -/
def SpacesBehind (right right' : Bytes) : Prop :=
  ∃ tabs m n, right = spaces m ++ tabs ∧ right' = spaces n ++ tabs

/-- On each side of the `=` only the spaces next to it differ, and nothing differs where another
`=` stands; no NUL before the `=` hides it. -/
structure Tidy : Prop where
  before : SpacesBefore e.before e.before'
  behind : SpacesBehind e.behind e.behind'
  clean : (0 : UInt8) ∉ e.key
  keyEnd : e.key.getLast? = some 61 → e.before' = e.before
  valStart : e.val.head? = some 61 → e.behind' = e.behind

end PairEdit

/-- An edit of what stands between the ends of a line. -/
inductive CoreEdit (Allowed : PairEdit → Prop) : Bytes → Bytes → Prop
  | same (core : Bytes) : CoreEdit Allowed core core
  | header (name left right left' right' : Bytes) (hl : Blank left) (hr : Blank right)
      (hl' : Blank left') (hr' : Blank right') :
      CoreEdit Allowed (91 :: (left ++ name ++ right) ++ [93])
        (91 :: (left' ++ name ++ right') ++ [93])
  | pair (e : PairEdit) (hvalid : e.Valid) (hallowed : Allowed e) :
      CoreEdit Allowed (PairEdit.text e.key e.before e.behind e.val)
        (PairEdit.text e.key e.before' e.behind' e.val)

/-- An edit of the blanks of a line. -/
def LineEdit (Allowed : PairEdit → Prop) (line line' : Bytes) : Prop :=
  ∃ left core right left' core' right', line = left ++ core ++ right ∧
    line' = left' ++ core' ++ right' ∧ LineEnd left ∧ LineEnd right ∧ LineEnd left' ∧
    LineEnd right' ∧ CoreEdit Allowed core core'

/-- Blanks are trimmed off a line. -/
theorem LineEnd.blank {bs : Bytes} (h : LineEnd bs) : ∀ c ∈ bs, strchr lineBlank c = true := by
  intro c hc
  have hin := h c hc
  refine strchr_of_mem ?_
  simp only [lineBlank, List.mem_cons, List.not_mem_nil, or_false] at hin ⊢
  tauto

/-- The ends of a line make no difference. -/
theorem lineMeans_ends {left right : Bytes} (core : Bytes) (hleft : LineEnd left)
    (hright : LineEnd right) : lineMeans (left ++ core ++ right) = lineMeans core := by
  have htrim : trimmed lineBlank (left ++ core ++ right) = trimmed lineBlank core :=
    Strip.strip_padded core hleft.blank hright.blank
  unfold lineMeans
  rw [htrim]

/-- A line that begins and ends with other bytes is not trimmed. -/
theorem lineMeans_core {core : Bytes} {first last : UInt8} (hfirst : core.head? = some first)
    (hlast : core.getLast? = some last) (hf : strchr lineBlank first = false)
    (hl : strchr lineBlank last = false) : lineMeans core = coreMeans core := by
  have htrim :=
    @trimmed_padded lineBlank [] core [] first last (by simp) (by simp) hfirst hlast hf hl
  rw [List.nil_append, List.append_nil] at htrim
  unfold lineMeans
  rw [htrim]

/-- The header of a section, whatever blanks are in it. -/
theorem lineMeans_header {left right : Bytes} (name : Bytes) (hleft : Blank left)
    (hright : Blank right) :
    lineMeans (91 :: (left ++ name ++ right) ++ [93]) =
      if trimmed headerBlank name = [] then .bad else .header (trimmed headerBlank name) := by
  have hin : ∀ c ∈ ([32, 91, 93, 9] : Bytes), strchr headerBlank c = true :=
    fun c hc => strchr_of_mem hc
  have hsub : ([32, 9] : Bytes) ⊆ [32, 91, 93, 9] := by simp
  have htrim : trimmed headerBlank (91 :: (left ++ name ++ right) ++ [93]) =
      trimmed headerBlank name := by
    have hshape :
        91 :: (left ++ name ++ right) ++ [93] = (91 :: left) ++ name ++ (right ++ [93]) := by
      simp
    rw [hshape]
    refine Strip.strip_padded name ?_ ?_
    · intro c hc
      rcases List.mem_cons.mp hc with rfl | hc
      · exact hin 91 (by simp)
      · exact hin c (hsub (hleft c hc))
    · intro c hc
      rcases List.mem_append.mp hc with hc | hc
      · exact hin c (hsub (hright c hc))
      · obtain rfl := List.mem_singleton.mp hc
        exact hin 93 (by simp)
  have hlast : (91 :: (left ++ name ++ right) ++ [93]).getLast? = some 93 := List.getLast?_concat
  have hhead : (91 :: (left ++ name ++ right) ++ [93]).head? = some 91 := rfl
  rw [lineMeans_core hhead hlast (by decide) (by decide)]
  unfold coreMeans
  rw [if_neg (by simp), if_pos ⟨hhead, hlast⟩]
  dsimp only
  rw [htrim]

/-- The pieces on the two sides of a `=` that is seen. -/
theorem equalsPieces_append {left : Bytes} (right : Bytes) (hnul : (0 : UInt8) ∉ left) :
    equalsPieces (left ++ 61 :: right) = equalsPieces left ++ equalsPieces right := by
  unfold equalsPieces seenPieces nonEmpty
  rw [seenSplit_append right (by decide) hnul, List.filter_append]

/-- No `=` stands in blanks. -/
theorem Blank.noEquals {bs : Bytes} (h : Blank bs) : (61 : UInt8) ∉ bs := by
  intro hmem
  have hin := h 61 hmem
  simp at hin

/-- Nor a NUL. -/
theorem Blank.noNul {bs : Bytes} (h : Blank bs) : (0 : UInt8) ∉ bs := by
  intro hmem
  have hin := h 0 hmem
  simp at hin

/-- Spaces are trimmed off a piece. -/
theorem trimmed_spaces (part : Bytes) (m n : Nat) :
    trimmed space (spaces m ++ part ++ spaces n) = trimmed space part :=
  Strip.strip_padded part (spaces_in (by simp [space]) m) (spaces_in (by simp [space]) n)

/-- A piece that is not empty and its trimmed form. -/
def keptPiece (piece : Bytes) : List Bytes := if piece = [] then [] else [trimmed space piece]

/-- The trimmed pieces when the last one is known. -/
theorem equalsPieces_behind {line piece : Bytes} {before : List Bytes}
    (h : seenSplit 61 line = before ++ [piece]) :
    (equalsPieces line).map (trimmed space) =
      (before.filter fun p => p ≠ []).map (trimmed space) ++ keptPiece piece := by
  unfold equalsPieces seenPieces nonEmpty keptPiece
  rw [h, List.filter_append, List.map_append]
  by_cases hnil : piece = [] <;> simp [hnil]

/-- The trimmed pieces when the first one is known. -/
theorem equalsPieces_before {line piece : Bytes} {later : List Bytes}
    (h : seenSplit 61 line = piece :: later) :
    (equalsPieces line).map (trimmed space) =
      keptPiece piece ++ (later.filter fun p => p ≠ []).map (trimmed space) := by
  unfold equalsPieces seenPieces nonEmpty keptPiece
  rw [h, ← List.singleton_append, List.filter_append, List.map_append]
  by_cases hnil : piece = [] <;> simp [hnil]

namespace PairEdit

variable {e : PairEdit}

/-- The pieces of the key, whatever spaces are behind it. -/
theorem Tidy.keyPieces (hvalid : e.Valid) (htidy : e.Tidy) :
    (equalsPieces (e.key ++ e.before)).map (trimmed space) =
      (equalsPieces (e.key ++ e.before')).map (trimmed space) := by
  obtain ⟨before, last, hempty, hsplit⟩ := Search.splitOn_behind 61 e.key
  have hseen : ∀ bs, Blank bs → seenSplit 61 (e.key ++ bs) = before ++ [last ++ bs] := by
    intro bs hbs
    rw [seenSplit_clean (by simp [htidy.clean, hbs.noNul]), hsplit bs hbs.noEquals]
  rw [equalsPieces_behind (hseen e.before hvalid.before),
    equalsPieces_behind (hseen e.before' hvalid.before')]
  by_cases hlast : last = []
  · -- the key ends with a `=`: nothing has been put there
    have hend : e.key.getLast? = some 61 := by
      refine (hempty hlast).resolve_left ?_
      obtain ⟨c, hc, _⟩ := hvalid.first
      intro hnil
      rw [hnil] at hc
      cases hc
    rw [htidy.keyEnd hend]
  · obtain ⟨tabs, m, n, hm, hn⟩ := htidy.before
    have hkept : ∀ k, keptPiece (last ++ (tabs ++ spaces k)) = [trimmed space (last ++ tabs)] := by
      intro k
      have htrim := trimmed_spaces (last ++ tabs) 0 k
      rw [show spaces 0 = [] from rfl, List.nil_append, List.append_assoc] at htrim
      unfold keptPiece
      rw [if_neg (by simp [hlast]), htrim]
    rw [hm, hn, hkept, hkept]

/-- The pieces of the value, whatever spaces are before it. -/
theorem Tidy.valPieces (hvalid : e.Valid) (htidy : e.Tidy) :
    (equalsPieces (e.behind ++ e.val)).map (trimmed space) =
      (equalsPieces (e.behind' ++ e.val)).map (trimmed space) := by
  obtain ⟨first, later, hsplit⟩ := seenSplit_cons 61 e.val
  have hempty : first = [] → e.val = [] ∨ e.val.head? = some 61 := by
    rintro rfl
    exact seenSplit_empty hsplit
  have hseen : ∀ bs, Blank bs → seenSplit 61 (bs ++ e.val) = (bs ++ first) :: later := by
    intro bs hbs
    rw [seenSplit_front hbs.noEquals hbs.noNul, hsplit]
    rfl
  rw [equalsPieces_before (hseen e.behind hvalid.behind),
    equalsPieces_before (hseen e.behind' hvalid.behind')]
  by_cases hfirst : first = []
  · have hstart : e.val.head? = some 61 := by
      refine (hempty hfirst).resolve_left ?_
      obtain ⟨c, hc, _⟩ := hvalid.last
      intro hnil
      rw [hnil] at hc
      cases hc
    rw [htidy.valStart hstart]
  · obtain ⟨tabs, m, n, hm, hn⟩ := htidy.behind
    have hkept : ∀ k, keptPiece (spaces k ++ tabs ++ first) = [trimmed space (tabs ++ first)] := by
      intro k
      have htrim := trimmed_spaces (tabs ++ first) k 0
      rw [show spaces 0 = [] from rfl, List.append_nil, ← List.append_assoc] at htrim
      unfold keptPiece
      rw [if_neg (by simp [hfirst]), htrim]
    rw [hm, hn, hkept, hkept]

/-- A pair with blanks around its `=` means what its trimmed pieces say. -/
theorem Valid.means (hvalid : e.Valid) {before : Bytes} (behind : Bytes)
    (hnul : (0 : UInt8) ∉ e.key ++ before) :
    lineMeans (text e.key before behind e.val) =
      piecesMean ((equalsPieces (e.key ++ before)).map (trimmed space) ++
        (equalsPieces (behind ++ e.val)).map (trimmed space)) := by
  obtain ⟨first, hfirst, hf, hmark⟩ := hvalid.first
  obtain ⟨last, hlast, hl⟩ := hvalid.last
  have hhead : (text e.key before behind e.val).head? = some first := by
    unfold text
    simp [hfirst]
  have hend : (text e.key before behind e.val).getLast? = some last := by
    unfold text
    rw [← List.cons_append, ← List.append_assoc, List.getLast?_append, hlast]
    rfl
  have hskip : ¬ (text e.key before behind e.val = [] ∨
      (text e.key before behind e.val).head? = some 35) := by
    rw [hhead]
    rintro (hnil | hcomment)
    · rw [hnil] at hhead
      cases hhead
    · exact hmark (Option.some.inj hcomment)
  have hheader : ¬ ((text e.key before behind e.val).head? = some 91 ∧
      (text e.key before behind e.val).getLast? = some 93) := by
    rw [hhead, hend, ← hfirst, ← hlast]
    exact hvalid.header
  rw [lineMeans_core hhead hend hf hl, coreMeans_pieces ⟨hskip, hheader⟩]
  unfold text
  rw [equalsPieces_append _ hnul, List.map_append]

/-- A tidy edit leaves the pair as it is. -/
theorem Tidy.means (hvalid : e.Valid) (htidy : e.Tidy) :
    lineMeans (text e.key e.before e.behind e.val) =
      lineMeans (text e.key e.before' e.behind' e.val) := by
  have hnul : ∀ bs, Blank bs → (0 : UInt8) ∉ e.key ++ bs := by
    intro bs hbs
    simp [htidy.clean, hbs.noNul]
  rw [hvalid.means _ (hnul _ hvalid.before), hvalid.means _ (hnul _ hvalid.before'),
    htidy.keyPieces hvalid, htidy.valPieces hvalid]

end PairEdit

/-- **Lines.**  A tidy edit of the blanks of a line leaves its meaning. -/
theorem LineEdit.means {line line' : Bytes} (h : LineEdit PairEdit.Tidy line line') :
    lineMeans line = lineMeans line' := by
  obtain ⟨left, core, right, left', core', right', rfl, rfl, hl, hr, hl', hr', hedit⟩ := h
  rw [lineMeans_ends core hl hr, lineMeans_ends core' hl' hr']
  cases hedit with
  | same => rfl
  | header name _ _ _ _ hl hr hl' hr' =>
      rw [lineMeans_header name hl hr, lineMeans_header name hl' hr']
  | pair e hvalid htidy => exact htidy.means hvalid

/-- An edit of blanks brings in no NUL. -/
theorem LineEdit.clean {Allowed : PairEdit → Prop} {line line' : Bytes}
    (h : LineEdit Allowed line line') (hclean : (0 : UInt8) ∉ line) : (0 : UInt8) ∉ line' := by
  have hends : ∀ bs, LineEnd bs → (0 : UInt8) ∉ bs := by
    intro bs hbs hmem
    have hin := hbs 0 hmem
    simp at hin
  obtain ⟨left, core, right, left', core', right', rfl, rfl, _, _, hl', hr', hedit⟩ := h
  have hcore : (0 : UInt8) ∉ core := fun hmem => hclean (by simp [hmem])
  have hcore' : (0 : UInt8) ∉ core' := by
    cases hedit with
    | same => exact hcore
    | header name left right left' right' _ _ hl hr =>
        have hname : (0 : UInt8) ∉ name := fun hmem => hcore (by simp [hmem])
        simp [hname, hl.noNul, hr.noNul]
    | pair e hvalid _ =>
        unfold PairEdit.text at hcore ⊢
        have hkey : (0 : UInt8) ∉ e.key := fun hmem => hcore (by simp [hmem])
        have hval : (0 : UInt8) ∉ e.val := fun hmem => hcore (by simp [hmem])
        simp [hkey, hval, hvalid.before'.noNul, hvalid.behind'.noNul]
  simp [hcore', hends left' hl', hends right' hr']

/-- A file that consists of a pair with an edit of its blanks: no NUL, line end or `=` stands in
its names, they have no blanks at the `=`, and they fit with all blanks. -/
structure PairEdit.Single (e : PairEdit) : Prop extends e.Valid where
  plain : ∀ c ∈ e.key ++ e.val, c ∉ ([0, 10, 61] : Bytes)
  keyEnd : ∃ c, e.key.getLast? = some c ∧ c ≠ 32
  valStart : ∃ c, e.val.head? = some c ∧ c ≠ 32
  keyFits : (e.key ++ e.before).length < KEY_MAXLEN ∧ (e.key ++ e.before').length < KEY_MAXLEN
  valFits : (e.behind ++ e.val).length < VAL_MAXLEN ∧ (e.behind' ++ e.val).length < VAL_MAXLEN

namespace PairEdit.Single

variable {e : PairEdit}

/-- What no `=` stands in is one piece. -/
theorem equalsPieces_whole {part : Bytes} (hne : part ≠ []) (h : (61 : UInt8) ∉ part) :
    equalsPieces part = [part] := by
  have hseen : (61 : UInt8) ∉ cstr part := fun hmem => h ((List.takeWhile_prefix _).subset hmem)
  unfold equalsPieces seenPieces nonEmpty
  rw [seenSplit_whole hseen]
  simp [hne]

/-- The bytes of the names. -/
theorem notMem (h : e.Single) {c : UInt8} (hc : c ∈ ([0, 10, 61] : Bytes)) :
    c ∉ e.key ∧ c ∉ e.val :=
  ⟨fun hmem => h.plain c (List.mem_append_left _ hmem) hc,
    fun hmem => h.plain c (List.mem_append_right _ hmem) hc⟩

/-- A byte that is neither a blank of a line nor NUL is not trimmed off a piece. -/
theorem space_of_lineBlank {c : UInt8} (h : strchr lineBlank c = false) :
    strchr space c = false := by
  obtain ⟨hne, hnot⟩ := strchr_eq_false.mp h
  refine strchr_eq_false.mpr ⟨hne, fun hmem => hnot ?_⟩
  obtain rfl := List.mem_singleton.mp hmem
  exact List.mem_cons_self

/-- The key with the tabs behind it is what is stored. -/
theorem keyTrim (h : e.Single) {tabs : Bytes} (m : Nat)
    (htabs : ∀ c, tabs.getLast? = some c → strchr space c = false) :
    trimmed space (e.key ++ (tabs ++ spaces m)) = e.key ++ tabs := by
  refine (Strip.stripped_iff.mp ⟨⟨[], spaces m, by simp, by simp,
    spaces_in (by simp [space]) m⟩, ?_, ?_⟩).symm
  · intro c hc
    obtain ⟨first, hfirst, hf, _⟩ := h.first
    rw [List.head?_append, hfirst] at hc
    obtain rfl : first = c := Option.some.inj hc
    exact space_of_lineBlank hf
  · intro c hc
    rw [List.getLast?_append] at hc
    cases hlast : tabs.getLast? with
    | some d =>
        rw [hlast] at hc
        obtain rfl : d = c := Option.some.inj hc
        exact htabs d hlast
    | none =>
        obtain ⟨d, hd, hspace⟩ := h.keyEnd
        rw [hlast, hd] at hc
        obtain rfl : d = c := Option.some.inj hc
        refine strchr_eq_false.mpr ⟨?_, fun hmem => hspace (List.mem_singleton.mp hmem)⟩
        rintro rfl
        exact (h.notMem (by simp)).1 (List.mem_of_mem_getLast? hd)

/-- The tabs before the value are stored with it. -/
theorem valTrim (h : e.Single) {tabs : Bytes} (m : Nat)
    (htabs : ∀ c, tabs.head? = some c → strchr space c = false) :
    trimmed space (spaces m ++ tabs ++ e.val) = tabs ++ e.val := by
  refine (Strip.stripped_iff.mp ⟨⟨spaces m, [], by simp, spaces_in (by simp [space]) m,
    by simp⟩, ?_, ?_⟩).symm
  · intro c hc
    rw [List.head?_append] at hc
    cases hfirst : tabs.head? with
    | some d =>
        rw [hfirst] at hc
        obtain rfl : d = c := Option.some.inj hc
        exact htabs d hfirst
    | none =>
        obtain ⟨d, hd, hspace⟩ := h.valStart
        rw [hfirst, hd] at hc
        obtain rfl : d = c := Option.some.inj hc
        refine strchr_eq_false.mpr ⟨?_, fun hmem => hspace (List.mem_singleton.mp hmem)⟩
        rintro rfl
        exact (h.notMem (by simp)).2 (List.mem_of_mem_head? hd)
  · intro c hc
    obtain ⟨last, hlast, hl⟩ := h.last
    rw [List.getLast?_append, hlast] at hc
    obtain rfl : last = c := Option.some.inj hc
    exact space_of_lineBlank hl

/-- The file is one line. -/
theorem linesOf_text (h : e.Single) {before behind : Bytes} (hb : Blank before)
    (hv : Blank behind) :
    linesOf (text e.key before behind e.val) = [text e.key before behind e.val] := by
  obtain ⟨hkey, hval⟩ := h.notMem (c := 10) (by simp)
  have hblank : ∀ bs, Blank bs → (10 : UInt8) ∉ bs := by
    intro bs hbs hmem
    have hin := hbs 10 hmem
    simp at hin
  refine List.splitOn_eq_singleton ?_
  unfold text
  simp [hkey, hval, hblank before hb, hblank behind hv]

/-- The entry of the file. -/
theorem entriesIn_text (h : e.Single) {before behind : Bytes} (hb : Blank before)
    (hv : Blank behind) :
    entriesIn (text e.key before behind e.val) =
      [⟨global.1, trimmed space (e.key ++ before), trimmed space (behind ++ e.val)⟩] ∧
    Readable (text e.key before behind e.val) := by
  obtain ⟨hkey, hval⟩ := h.notMem (c := 61) (by simp)
  have hknil : e.key ++ before ≠ [] := by
    obtain ⟨c, hc, _⟩ := h.first
    intro hnil
    rw [(List.append_eq_nil_iff.mp hnil).1] at hc
    cases hc
  have hvnil : behind ++ e.val ≠ [] := by
    obtain ⟨c, hc, _⟩ := h.last
    intro hnil
    rw [(List.append_eq_nil_iff.mp hnil).2] at hc
    cases hc
  have hnul : (0 : UInt8) ∉ e.key ++ before := by
    simp [(h.notMem (c := 0) (by simp)).1, hb.noNul]
  have hmeans := h.toValid.means behind hnul
  rw [equalsPieces_whole hknil (by simp [hkey, hb.noEquals]),
    equalsPieces_whole hvnil (by simp [hval, hv.noEquals])] at hmeans
  have hpair : lineMeans (text e.key before behind e.val) =
      .pair (trimmed space (e.key ++ before)) (trimmed space (behind ++ e.val)) := hmeans
  constructor
  · unfold entriesIn
    rw [h.linesOf_text hb hv, entriesFrom, entriesFrom, hpair]
    rfl
  · unfold Readable
    rw [h.linesOf_text hb hv]
    intro line hline
    obtain rfl := List.mem_singleton.mp hline
    rw [hpair]
    rintro ⟨⟩

/-- No NUL stands in the file. -/
theorem text_clean (h : e.Single) {before behind : Bytes} (hb : Blank before) (hv : Blank behind) :
    (0 : UInt8) ∉ text e.key before behind e.val := by
  obtain ⟨hkey, hval⟩ := h.notMem (c := 0) (by simp)
  unfold text
  simp [hkey, hval, hb.noNul, hv.noNul]

/-- What the options hold after the file. -/
theorem stored (h : e.Single) {before behind tabs tabs' : Bytes} {m n : Nat}
    (hb : Blank before) (hv : Blank behind) (hbefore : before = tabs ++ spaces m)
    (hbehind : behind = spaces n ++ tabs')
    (htabs : ∀ c, tabs.getLast? = some c → strchr space c = false)
    (htabs' : ∀ c, tabs'.head? = some c → strchr space c = false)
    (hkfits : (e.key ++ before).length < KEY_MAXLEN)
    (hvfits : (behind ++ e.val).length < VAL_MAXLEN) {envs : List LineEnv}
    {out : Bool × List OptEntry} (hgood : ∀ env ∈ envs, env.Good)
    (hout : optCreate (some Io.create) (some .create) ⟨text e.key before behind e.val, 0⟩ [] envs =
      some out) :
    out.1 = true ∧ out.2.map OptEntry.view = [⟨global.1, e.key ++ tabs, tabs' ++ e.val⟩] := by
  obtain ⟨hentries, hreadable⟩ := h.entriesIn_text hb hv
  obtain ⟨hok, hview⟩ := optCreate_means (endsClear_of_clean (h.text_clean hb hv)) hgood hout
  have haccepted := hok.mpr hreadable
  refine ⟨haccepted, ?_⟩
  rw [hbefore] at hkfits
  rw [hbehind] at hvfits
  rw [hview haccepted, hentries, hbefore, hbehind, h.keyTrim m htabs, h.valTrim n htabs']
  have hclean := h.text_clean hb hv
  unfold text at hclean
  rw [hbefore, hbehind] at hclean
  simp only [List.length_append] at hkfits hvfits
  have hk : cutTo KEY_MAXLEN (e.key ++ tabs) = e.key ++ tabs := by
    refine cutTo_of_fits (fun hmem => hclean ?_) ?_
    · rcases List.mem_append.mp hmem with hmem | hmem <;> simp [hmem]
    · rw [List.length_append]
      omega
  have hv : cutTo VAL_MAXLEN (tabs' ++ e.val) = tabs' ++ e.val := by
    refine cutTo_of_fits (fun hmem => hclean ?_) ?_
    · rcases List.mem_append.mp hmem with hmem | hmem <;> simp [hmem]
    · rw [List.length_append]
      omega
  unfold Entry.cut
  rw [List.map_singleton, hk, hv, cutTo_of_fits global.2 (by decide)]

end PairEdit.Single

end Spe
