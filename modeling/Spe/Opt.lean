import Spe.BufferRefines
import Spe.IoDefined
import Spe.SplitSeen

/-!
# Options (`spe_opt.c`)

`spe_opt_create` reads a config file line by line.  A line is trimmed, and it is either
blank, a comment, the header of a section or a pair that is split at its `=`.  Names and
values are copied into arrays of fixed size.  `spe_opt_string` looks for the first entry of
a section and a key in the list of options.

The run of `spe_opt_create` takes one `LineEnv` for each line: how the reads for it go and
what the allocator answers.  `none` is a call that has not returned, because it is still
reading, because an `ASSERT` or a store through NULL has ended the process, or because a size
has wrapped in 32 bits and from there on the run is not defined.  So what returns is a run of the
machine (`ByteBuf.append_machine`, `ByteBuf.readFdAppend_machine`, `ByteBuf.split_machine`).
-/

namespace Spe

/-- `SEC_MAXLEN`, `KEY_MAXLEN` and `VAL_MAXLEN`. -/
def SEC_MAXLEN : Nat := 16

def KEY_MAXLEN : Nat := 16

def VAL_MAXLEN : Nat := 128

/-- The token `" \r\t\n"`. -/
def lineBlank : CStr := ⟨[32, 13, 9, 10], by decide⟩

/-- The token `" []\t"`. -/
def headerBlank : CStr := ⟨[32, 91, 93, 9], by decide⟩

/-- The tokens `" "`, `"="` and `"\n"`. -/
def space : CStr := ⟨[32], by decide⟩

def equals : CStr := ⟨[61], by decide⟩

theorem nul_not_mem_newline : (0 : UInt8) ∉ ([10] : Bytes) := by decide

def newline : CStr := ⟨[10], nul_not_mem_newline⟩

/-- The string `"global"`. -/
def global : CStr := ⟨[103, 108, 111, 98, 97, 108], by decide⟩

/-- `spe_opt_t`: arrays of `SEC_MAXLEN`, `KEY_MAXLEN` and `VAL_MAXLEN` bytes. -/
structure OptEntry where
  sec : Bytes
  key : Bytes
  val : Bytes
  deriving DecidableEq

/-- The array after `strncpy(dst, src, n)`. -/
def strncpy (src : Bytes) (n : Nat) : Bytes :=
  (cstr src).take n ++ List.replicate (n - (cstr src).length) 0

/-- `strncpy(dst, src, n); dst[n - 1] = 0`. -/
def strncpyEnd (src : Bytes) (n : Nat) : Bytes := (strncpy src n).set (n - 1) 0

/-- `spe_opt_set`. -/
def optSet (options : List OptEntry) (sec key val : Bytes) (calloc : Bool) : List OptEntry :=
  if calloc then
    options ++ [⟨strncpy sec SEC_MAXLEN, strncpy key KEY_MAXLEN, strncpy val VAL_MAXLEN⟩]
  else options

/-- `spe_opt_string`.  A NULL section is `"global"`. -/
def optString (options : List OptEntry) (section_ key : Option CStr) (default : Option Bytes) :
    Option Bytes :=
  match key with
  | none => default
  | some key =>
      match options.find? fun entry =>
        (section_.getD global).1 = cstr entry.sec ∧ key.1 = cstr entry.key with
      | some entry => some (cstr entry.val)
      | none => default

/-- How the reads for a line go, and what the allocator answers on it. -/
structure LineEnv where
  al : Alloc
  cuts : List (Cut × Alloc)
  bufs : Bool
  pieces : Nat → BufsAlloc
  entry : Bool

/-- What a line does: the file is rejected, or the loop goes on with the section, the
buffer of the line and the options. -/
inductive LineDone
  | reject
  | next (sec : Bytes) (line : ByteBuf) (options : List OptEntry)

section Lines

variable (sec : Bytes) (line : ByteBuf) (options : List OptEntry) (env : LineEnv)

/-- A line with a key and a value. -/
def optPair : Option LineDone :=
  match line.split equals env.bufs env.pieces (line.buf.len + 1) with
  | some (some bufs) =>
      if ¬ bufs.Short then none else
      if bufs.len ≠ 2 then some .reject else
      match bufs.data.getD 0 none, bufs.data.getD 1 none with
      | some key, some val =>
          if key.null ∨ val.null then none else
          let key := strncpyEnd ((key.strim space).cstrAt 0) KEY_MAXLEN
          let val := strncpyEnd ((val.strim space).cstrAt 0) VAL_MAXLEN
          some (.next sec line (optSet options sec key val env.entry))
      | _, _ => none
  | _ => none

/-- The body of the loop of `spe_opt_create` on a trimmed line. -/
def optLine : Option LineDone :=
  if line.buf.len = 0 ∨ line.bytes.head? = some 35 then some (.next sec line options)
  else if line.bytes.head? = some 91 ∧ line.bytes.getLast? = some 93 then
    let line := line.strim headerBlank
    if line.buf.len = 0 then some .reject
    else some (.next (strncpyEnd (line.cstrAt 0) SEC_MAXLEN) line options)
  else optPair sec line options env

end Lines

/-- The call for a line. -/
def newlineCall (line : ByteBuf) (env : LineEnv) : IoCall :=
  ⟨.readUntil (some newline), line.clean, env.al, env.cuts⟩

/-- The loop of `spe_opt_create`. -/
def optLoop (sec : Bytes) (io : Io) (line : ByteBuf) (fd : Descriptor)
    (options : List OptEntry) : List LineEnv → Option (Bool × List OptEntry)
  | [] => none
  | env :: envs =>
      if ¬ io.CallDefined fd (newlineCall line env) then none else
      match io.readuntil (some newline) line.clean env.al fd env.cuts with
      | none => none
      | some r =>
          if r.buf.null then none else
          match optLine sec (r.buf.strim lineBlank) options env with
          | none => none
          | some .reject => some (false, options)
          | some (.next sec line options) =>
              if 0 < r.ret then optLoop sec r.io line r.fd options envs
              else some (true, options)

/-- `spe_opt_create`: whether the file was opened and the buffers created, the open file,
the options before. -/
def optCreate (io : Option Io) (line : Option ByteBuf) (fd : Descriptor)
    (options : List OptEntry) (envs : List LineEnv) : Option (Bool × List OptEntry) :=
  match io, line with
  | some io, some line => optLoop (strncpy global.1 SEC_MAXLEN) io line fd options envs
  | _, _ => some (false, options)

/-- The allocator answers, and the reads may be interrupted. -/
structure LineEnv.Good (env : LineEnv) : Prop where
  al : env.al.isSome
  cuts : CutsGood env.cuts
  bufs : env.bufs = true
  pieces : ∀ start, (env.pieces start).Good
  entry : env.entry = true

/-- What a C string function sees of the array after `strncpy`, when there is room for the
NUL. -/
theorem cstr_strncpy {src : Bytes} {n : Nat} (h : (cstr src).length < n) :
    cstr (strncpy src n) = cstr src := by
  have hclean := nul_not_mem_cstr src
  obtain ⟨k, hk⟩ : ∃ k, n - (cstr src).length = k + 1 := ⟨n - (cstr src).length - 1, by omega⟩
  unfold strncpy
  rw [List.take_of_length_le (Nat.le_of_lt h), hk, List.replicate_succ, cstr_terminated,
    cstr_of_clean hclean]

/-- The NUL at the end of the array is there already. -/
theorem cstr_strncpyEnd {src : Bytes} {n : Nat} (h : (cstr src).length < n) :
    cstr (strncpyEnd src n) = cstr src := by
  have hsame : strncpyEnd src n = strncpy src n := by
    unfold strncpyEnd strncpy
    rw [List.take_of_length_le (Nat.le_of_lt h), List.set_append_right _ _ (by omega),
      List.set_replicate_self]
  rw [hsame, cstr_strncpy h]

/-- A buffer that holds something has a block. -/
theorem ByteBuf.not_null {b : ByteBuf} (hne : b.bytes ≠ []) : b.null = false := by
  cases hstart : b.buf.start with
  | none => exact absurd (content_of_null hstart) hne
  | some m => simp [ByteBuf.null, hstart]

/-- A buffer that has been appended to has a block. -/
theorem ByteBuf.append_not_null (b : ByteBuf) (src : Bytes) {al : Alloc} (hal : al.isSome) :
    (b.append src al).1.null = false := by
  obtain ⟨c, hc, hsome⟩ := bufAppend_terminates b.wf (b.append_ok src hal)
  have hstart : (b.append src al).1.buf.start.isSome := by
    show (bufAppend .exact b.buf src al).1.start.isSome
    rw [hc, terminate_isSome]
    exact hsome
  simpa [ByteBuf.null] using hstart

/-- So has one that has been copied to. -/
theorem ByteBuf.copy_not_null (b : ByteBuf) (src : Bytes) {al : Alloc} (hal : al.isSome) :
    (b.copy src al).1.null = false := by
  have hok : (bufCopy .exact b.buf src al).2 = true :=
    (bufCopy_spec al b.wf (holds_exact _) (copyFits_exact b.buf src.length)).2.2.2.1 hal
  obtain ⟨c, hc, hsome⟩ := bufCopy_terminates b.wf hok
  have hstart : (b.copy src al).1.buf.start.isSome := by
    show (bufCopy .exact b.buf src al).1.start.isSome
    rw [hc, terminate_isSome]
    exact hsome
  simpa [ByteBuf.null] using hstart

/-- An entry as three strings. -/
structure Entry where
  sec : Bytes
  key : Bytes
  val : Bytes
  deriving DecidableEq

/-- What the C string functions see of an entry. -/
def OptEntry.view (e : OptEntry) : Entry := ⟨cstr e.sec, cstr e.key, cstr e.val⟩

/-- The first entry of a section and a key. -/
def lookup (entries : List Entry) (sec key : Bytes) : Option Entry :=
  entries.find? fun entry => sec = entry.sec ∧ key = entry.key

/-- The first entry of a section and a key, as the C string functions see it. -/
theorem lookup_view (options : List OptEntry) (sec key : Bytes) :
    lookup (options.map OptEntry.view) sec key =
      (options.find? fun entry => sec = cstr entry.sec ∧ key = cstr entry.key).map
        OptEntry.view := by
  unfold lookup
  rw [List.find?_map]
  rfl

/-- What is found has the names that were looked for. -/
theorem lookup_names {entries : List Entry} {sec key : Bytes} {e : Entry}
    (h : lookup entries sec key = some e) : e ∈ entries ∧ sec = e.sec ∧ key = e.key := by
  unfold lookup at h
  have hnames := List.find?_some h
  exact ⟨List.mem_of_find?_eq_some h, of_decide_eq_true hnames⟩

/-- **`spe_opt_string`** looks up the strings of the entries. -/
theorem optString_eq (options : List OptEntry) (sec : Option CStr) (key : CStr)
    (default : Option Bytes) :
    optString options sec (some key) default =
      (lookup (options.map OptEntry.view) (sec.getD global).1 key.1).elim default
        fun entry => some entry.val := by
  unfold optString
  rw [lookup_view]
  dsimp only
  cases options.find? fun entry =>
    (sec.getD global).1 = cstr entry.sec ∧ key.1 = cstr entry.key <;> rfl

/-- **`spe_opt_set`** puts strings that fit behind the others. -/
theorem optSet_view (options : List OptEntry) {sec key val : Bytes}
    (hsec : (cstr sec).length < SEC_MAXLEN) (hkey : (cstr key).length < KEY_MAXLEN)
    (hval : (cstr val).length < VAL_MAXLEN) :
    (optSet options sec key val true).map OptEntry.view =
      options.map OptEntry.view ++ [⟨cstr sec, cstr key, cstr val⟩] := by
  unfold optSet OptEntry.view
  rw [if_pos rfl, List.map_append, List.map_singleton]
  dsimp only
  rw [cstr_strncpy hsec, cstr_strncpy hkey, cstr_strncpy hval]

end Spe
