import Mathlib.Algebra.Group.Nat.Defs
import Mathlib.Data.List.Forall2
import Spe.Extent
import Spe.Opt
import Spe.Transition

/-!
# The title of a process (`spe_init_proc_title`, `spe_set_proc_title`)

The memory of the process is a list of bytes, a pointer an index into it; the strings of
`argv` and `environ` are NUL-terminated and pairwise disjoint, in any places (`Layout`).  The
arrays of pointers are lists: their cells are no part of the bytes.

`spe_init_proc_title` follows the strings that adjoin behind `argv[0]`, first those of `argv`
and then those of `environ`, and moves the latter out of the way into a block of its own.
`spe_set_proc_title` writes from `argv[0]` up to the NUL of the last of them.

`stores` is history: the address and the number of bytes of each `strncpy`.
-/

namespace Spe

open Transition

/-- The string at an address, up to its first NUL. -/
def stringAt (mem : Bytes) (a : Nat) : Bytes := cstr (mem.drop a)

/-- The bytes of a string at an address, with its NUL. -/
def extentOf (mem : Bytes) (a : Nat) : Extent := ⟨a, a + (stringAt mem a).length + 1⟩

/-- The memory and the pointers of the process. -/
structure ProcMem where
  mem : Bytes
  argv : List Nat
  environ : List Nat
  speArgvLast : Nat
  stores : List Extent

namespace ProcMem

/-- `strlen`. -/
def strlen (s : ProcMem) (a : Nat) : Nat := (stringAt s.mem a).length

/-- `strncpy(dst, src, n)` of the string `src`. -/
def strncpy (s : ProcMem) (dst : Nat) (src : Bytes) (n : Nat) : ProcMem :=
  { s with
    mem := Block.overwrite s.mem dst (Spe.strncpy src n)
    stores := s.stores ++ [⟨dst, dst + n⟩] }

/-- The bytes that the strings of `environ` take; `size` is a `size_t`. -/
def environSize (s : ProcMem) : Nat :=
  s.environ.foldl (fun size e => (size + (s.strlen e + 1)) % 2 ^ 64) 0

/-- The loop over `argv`. -/
def argvLoop (s : ProcMem) : Nat :=
  s.argv.foldl (fun last a => if last = a then a + s.strlen a + 1 else last) (s.argv.headD 0)

/-- The loop over `environ`: the process, the rest of the block, and the pointers so far. -/
structure Move where
  proc : ProcMem
  p : Nat
  environ : List Nat

/-- One round of the loop over `environ`. -/
def Move.round (m : Move) (e : Nat) : Move :=
  if m.proc.speArgvLast = e then
    let size := m.proc.strlen e + 1
    let s : ProcMem := { m.proc with speArgvLast := e + size }
    { proc := s.strncpy m.p (stringAt s.mem e) size
      p := m.p + size
      environ := m.environ ++ [m.p] }
  else { m with environ := m.environ ++ [e] }

/-- `calloc(1, size)` has answered `p`. -/
def calloc (s : ProcMem) (p size : Nat) : ProcMem :=
  { s with mem := Block.overwrite s.mem p (List.replicate size 0) }

/-- `spe_init_proc_title`, with the answer of `calloc`. -/
def speInitProcTitle (s : ProcMem) (al : Option Nat) : ProcMem × Bool :=
  match al with
  | none => (s, false)
  | some p =>
      let s := s.calloc p s.environSize
      let s : ProcMem := { s with speArgvLast := s.argvLoop }
      let m := s.environ.foldl Move.round ⟨s, p, []⟩
      ({ m.proc with environ := m.environ, speArgvLast := m.proc.speArgvLast - 1 }, true)

/-- `spe_set_proc_title`.  The store of `NULL` in `argv[1]` ends the list of arguments. -/
def speSetProcTitle (s : ProcMem) (title : Bytes) : ProcMem :=
  let s : ProcMem := { s with argv := s.argv.take 1 }
  s.strncpy (s.argv.headD 0) title (s.speArgvLast - s.argv.headD 0)

/-- A call of `spe_set_proc_title`, as a step. -/
def titleStep (s : ProcMem) (title : Bytes) : Option ProcMem := some (s.speSetProcTitle title)

/-- The process at the call of `spe_init_proc_title`: the strings are NUL-terminated, none is at
`NULL`, they are pairwise disjoint, and addresses have 64 bits. -/
structure Layout (s : ProcMem) : Prop where
  nonnull : ∀ a ∈ s.argv ++ s.environ, 0 < a
  ends : ∀ a ∈ s.argv ++ s.environ, (0 : UInt8) ∈ s.mem.drop a
  apart : (s.argv ++ s.environ).Pairwise
    (fun a b => (extentOf s.mem a).Apart (extentOf s.mem b))
  fits : s.mem.length ≤ 2 ^ 64

/-- The block that `calloc` answers is in memory, and apart from the strings. -/
structure Fresh (s : ProcMem) (p : Nat) : Prop where
  inside : p + s.environSize ≤ s.mem.length
  apart : ∀ a ∈ s.argv ++ s.environ, (extentOf s.mem a).Apart ⟨p, p + s.environSize⟩

end ProcMem

/-- A string is in memory at an address. -/
structure Holds (mem : Bytes) (a : Nat) (v : Bytes) : Prop where
  clean : (0 : UInt8) ∉ v
  cells : Block.slice mem a (v.length + 1) = v ++ [0]

/-- The bytes that a string takes at an address, with its NUL. -/
def span (a : Nat) (v : Bytes) : Extent := ⟨a, a + v.length + 1⟩

theorem span_nonempty (a : Nat) (v : Bytes) : (span a v).start < (span a v).stop := by
  simp only [span]
  omega

section Strings

variable {mem v : Bytes} {a : Nat}

/-- The first NUL ends a string. -/
theorem cstr_split {l : Bytes} (h : (0 : UInt8) ∈ l) : ∃ rest, l = cstr l ++ 0 :: rest := by
  induction l with
  | nil => cases h
  | cons c l ih =>
      by_cases hc : c = 0
      · subst hc
        exact ⟨l, rfl⟩
      · obtain ⟨rest, hrest⟩ := ih ((List.mem_cons.mp h).resolve_left (Ne.symm hc))
        refine ⟨rest, ?_⟩
        rw [cstr, List.takeWhile_cons_of_pos (by simpa using hc), List.cons_append]
        exact congrArg (c :: ·) hrest

/-- A string does not hold its NUL. -/
theorem stringAt_clean (mem : Bytes) (a : Nat) : (0 : UInt8) ∉ stringAt mem a := by
  intro hmem
  simpa using List.mem_takeWhile_imp hmem

/-- A terminated string is in memory. -/
theorem holds_of_ends (h : (0 : UInt8) ∈ mem.drop a) : Holds mem a (stringAt mem a) := by
  refine ⟨stringAt_clean mem a, ?_⟩
  obtain ⟨rest, hrest⟩ := cstr_split h
  rw [Block.slice, hrest]
  change (stringAt mem a ++ 0 :: rest).take _ = _
  rw [List.append_cons, List.take_left' (by simp)]

/-- What a string function sees of a string that is in memory. -/
theorem Holds.string (h : Holds mem a v) : stringAt mem a = v := by
  have hsplit : mem.drop a = v ++ 0 :: (mem.drop a).drop (v.length + 1) := by
    rw [List.append_cons, ← h.cells, Block.slice, List.take_append_drop]
  rw [stringAt, hsplit, cstr_terminated, cstr_of_clean h.clean]

/-- A string in memory ends there. -/
theorem Holds.bound (h : Holds mem a v) : a + v.length + 1 ≤ mem.length := by
  have hlength := congrArg List.length h.cells
  simp only [Block.slice, List.length_take, List.length_drop, List.length_append,
    List.length_singleton] at hlength
  omega

/-- The NUL of a string. -/
theorem Holds.nul (h : Holds mem a v) : mem[a + v.length]? = some 0 := by
  have hlast : (Block.slice mem a (v.length + 1))[v.length]? = some 0 := by
    rw [h.cells]
    simp
  simpa [Block.slice, List.getElem?_take] using hlast

/-- A store apart from a string leaves it as it is. -/
theorem Holds.overwrite (h : Holds mem a v) {dst : Nat} {xs : Bytes}
    (hapart : (span a v).Apart ⟨dst, dst + xs.length⟩) :
    Holds (Block.overwrite mem dst xs) a v := by
  refine ⟨h.clean, ?_⟩
  rw [← h.cells]
  rcases hapart with hbefore | hbehind
  · exact Block.slice_overwrite_before (by simpa [span, Nat.add_assoc] using hbefore)
  · exact Block.slice_overwrite_behind hbehind

/-- `strncpy` stores as many bytes as it is told. -/
theorem strncpy_length (src : Bytes) (n : Nat) : (strncpy src n).length = n := by
  simp only [strncpy, List.length_append, List.length_take, List.length_replicate]
  omega

/-- `strncpy` of a whole string. -/
theorem strncpy_whole (hv : (0 : UInt8) ∉ v) : strncpy v (v.length + 1) = v ++ [0] := by
  rw [strncpy, cstr_of_clean hv, List.take_of_length_le (Nat.le_succ _)]
  simp

/-- The copy of a string is in memory where it has been put. -/
theorem holds_copy (hv : (0 : UInt8) ∉ v) {dst : Nat} (hroom : dst + v.length + 1 ≤ mem.length) :
    Holds (Block.overwrite mem dst (strncpy v (v.length + 1))) dst v := by
  refine ⟨hv, ?_⟩
  rw [strncpy_whole hv]
  have hfits : dst + (v ++ [0]).length ≤ mem.length := by simpa [Nat.add_assoc] using hroom
  have hself := @Block.slice_overwrite_self UInt8 mem (v ++ [0]) dst hfits
  simpa using hself

/-- A string ends at a NUL behind its start, or before. -/
theorem stringAt_length_le {k : Nat} (h : mem[a + k]? = some 0) : (stringAt mem a).length ≤ k := by
  by_contra hlong
  have hk : k < (stringAt mem a).length := Nat.lt_of_not_le hlong
  obtain ⟨more, hmore⟩ : stringAt mem a <+: mem.drop a := List.takeWhile_prefix _
  have hget : (stringAt mem a)[k] = 0 := by
    rw [← List.getElem?_drop, ← hmore, List.getElem?_append_left hk,
      List.getElem?_eq_getElem hk] at h
    exact Option.some.inj h
  exact stringAt_clean mem a (hget ▸ List.getElem_mem hk)

end Strings

namespace ProcMem

variable {s : ProcMem} {val : Nat → Bytes} {block : Extent} {argv0 : Nat}

/-- A sum that is made modulo 2^64. -/
theorem foldl_mod (f : Nat → Nat) (es : List Nat) (n : Nat) :
    es.foldl (fun size e => (size + f e) % 2 ^ 64) (n % 2 ^ 64) =
      (n + (es.map f).sum) % 2 ^ 64 := by
  induction es generalizing n with
  | nil => simp
  | cons e es ih =>
      rw [List.foldl_cons, Nat.mod_add_mod, ih, List.map_cons, List.sum_cons, Nat.add_assoc]

/-- The strings take no more bytes than there are, so that `size` does not overflow. -/
theorem Layout.environSize_eq (h : s.Layout) :
    s.environSize = (s.environ.map (fun e => s.strlen e + 1)).sum := by
  have hapart : (s.environ.map (extentOf s.mem)).Pairwise Extent.Apart :=
    List.pairwise_map.mpr (List.pairwise_append.mp h.apart).2.1
  have hin : ∀ x ∈ s.environ.map (extentOf s.mem), 1 ≤ x.start ∧ x.stop ≤ s.mem.length := by
    intro x hx
    obtain ⟨e, he, rfl⟩ := List.mem_map.mp hx
    have hmem : e ∈ s.argv ++ s.environ := List.mem_append_right _ he
    exact ⟨h.nonnull e hmem, (holds_of_ends (h.ends e hmem)).bound⟩
  have hsum := Extent.size_sum_le hapart hin
  have hsizes : (s.environ.map (extentOf s.mem)).map Extent.size =
      s.environ.map (fun e => s.strlen e + 1) := by
    rw [List.map_map]
    apply List.map_congr_left
    intro e _
    change e + s.strlen e + 1 - e = s.strlen e + 1
    omega
  rw [hsizes] at hsum
  have hfits := h.fits
  have hfold := foldl_mod (fun e => s.strlen e + 1) s.environ 0
  rw [Nat.zero_add] at hfold
  exact hfold.trans (Nat.mod_eq_of_lt (by omega))

/-- What the loops of `spe_init_proc_title` rest on: the strings of `argv` and `environ` are in
memory, apart from each other and from the block, which has room for those of `environ`. -/
structure Laid (s : ProcMem) (val : Nat → Bytes) (block : Extent) : Prop where
  holds : ∀ a ∈ s.argv ++ s.environ, Holds s.mem a (val a)
  apart : (s.argv ++ s.environ).Pairwise (fun a b => (span a (val a)).Apart (span b (val b)))
  free : ∀ a ∈ s.argv ++ s.environ, (span a (val a)).Apart block
  room : block.start + (s.environ.map (fun e => (val e).length + 1)).sum ≤ block.stop
  inside : block.stop ≤ s.mem.length

/-- `calloc` answers a block apart from the strings. -/
theorem Layout.laid (h : s.Layout) {p : Nat} (hp : s.Fresh p) :
    (s.calloc p s.environSize).Laid (stringAt s.mem) ⟨p, p + s.environSize⟩ where
  holds a ha := by
    refine (holds_of_ends (h.ends a ha)).overwrite ?_
    rw [List.length_replicate]
    exact hp.apart a ha
  apart := h.apart
  free := hp.apart
  room := by
    rw [h.environSize_eq]
    exact Nat.le_refl _
  inside := by
    rw [calloc, Block.overwrite_length]
    exact hp.inside

/-- The region that the title may take starts at `argv[0]` and ends behind the NUL of a
string. -/
structure Region (mem : Bytes) (argv0 last : Nat) : Prop where
  nonempty : argv0 < last
  ended : ∃ b v, Holds mem b v ∧ last = b + v.length + 1

/-- A string that adjoins extends the region. -/
theorem Region.extend {mem v : Bytes} {last : Nat} (h : Region mem argv0 last)
    (hv : Holds mem last v) : Region mem argv0 (last + v.length + 1) where
  nonempty := by
    have hne := h.nonempty
    omega
  ended := ⟨last, v, hv, rfl⟩

/-- What is apart from the region and from the string that extends it. -/
theorem apart_extend {x : Extent} {v : Bytes} {last : Nat} (hx : x.start < x.stop)
    (hlast : x.Apart ⟨argv0, last⟩) (hv : x.Apart (span last v)) :
    x.Apart ⟨argv0, last + v.length + 1⟩ :=
  hlast.join hx hv

/-- The loop over `argv` extends the region by strings of `argv`: what is apart from them stays
apart from the region. -/
theorem region_argvLoop {Z : Extent → Prop} (hZ : ∀ x, Z x → x.start < x.stop) {last : Nat}
    {l : List Nat}
    (has : ∀ a ∈ l, Holds s.mem a (val a) ∧ ∀ x, Z x → x.Apart (span a (val a)))
    (hregion : Region s.mem argv0 last) (hlast : ∀ x, Z x → x.Apart ⟨argv0, last⟩) :
    Region s.mem argv0
        (l.foldl (fun last a => if last = a then a + s.strlen a + 1 else last) last) ∧
      ∀ x, Z x → x.Apart
        ⟨argv0, l.foldl (fun last a => if last = a then a + s.strlen a + 1 else last) last⟩ := by
  induction l generalizing last with
  | nil => exact ⟨hregion, hlast⟩
  | cons a l ih =>
      obtain ⟨hholds, hapart⟩ := has a List.mem_cons_self
      have hrest := fun b hb => has b (List.mem_cons_of_mem a hb)
      rw [List.foldl_cons]
      by_cases hadjoins : last = a
      · subst hadjoins
        have hlen : s.strlen last = (val last).length := congrArg List.length hholds.string
        rw [if_pos rfl, hlen]
        exact ih hrest (hregion.extend hholds)
          (fun x hx => apart_extend (hZ x hx) (hlast x hx) (hapart x hx))
      · rw [if_neg hadjoins]
        exact ih hrest hregion hlast

/-- Behind the loop over `argv` there is a region, and it is apart from the strings of
`environ` and from the block. -/
theorem Laid.argvLoop (h : s.Laid val block) (hargv : s.argv.head? = some argv0) :
    Region s.mem argv0 s.argvLoop ∧
    (∀ e ∈ s.environ, (span e (val e)).Apart ⟨argv0, s.argvLoop⟩) ∧
    (block.start < block.stop → block.Apart ⟨argv0, s.argvLoop⟩) := by
  obtain ⟨as, has⟩ : ∃ as, s.argv = argv0 :: as := List.head?_eq_some_iff.mp hargv
  have hfirst : Holds s.mem argv0 (val argv0) := h.holds argv0 (by simp [has])
  have hlen : s.strlen argv0 = (val argv0).length := congrArg List.length hfirst.string
  have hloop : s.argvLoop = as.foldl (fun last a => if last = a then a + s.strlen a + 1 else last)
      (argv0 + (val argv0).length + 1) := by
    rw [ProcMem.argvLoop, has, List.headD_cons, List.foldl_cons, if_pos rfl, hlen]
  have hend := region_argvLoop (s := s)
    (Z := fun x => x.start < x.stop ∧ ∀ a ∈ s.argv, x.Apart (span a (val a)))
    (fun _ hx => hx.1) (l := as)
    (fun a ha => ⟨h.holds a (by simp [has, ha]), fun x hx => hx.2 a (by simp [has, ha])⟩)
    ⟨by omega, argv0, val argv0, hfirst, rfl⟩ (fun x hx => hx.2 argv0 (by simp [has]))
  rw [← hloop] at hend
  refine ⟨hend.1, fun e he => hend.2 _ ⟨span_nonempty e _, fun a ha => ?_⟩,
    fun hne => hend.2 _ ⟨hne, fun a ha => ?_⟩⟩
  · exact ((List.pairwise_append.mp h.apart).2.2 a ha e he).symm
  · exact (h.free a (List.mem_append_left _ ha)).symm

/-- The loop over `environ` between two rounds: the pointers `done` have been replaced by
those in `m.environ`, the pointers `todo` are to come. -/
structure Moving (val : Nat → Bytes) (block : Extent) (argv0 : Nat) (argv : List Nat)
    (stores : List Extent) (todo done : List Nat) (m : Move) : Prop where
  region : Region m.proc.mem argv0 m.proc.speArgvLast
  free : block.start < block.stop → block.Apart ⟨argv0, m.proc.speArgvLast⟩
  waiting : ∀ e ∈ todo, Holds m.proc.mem e (val e) ∧ (span e (val e)).Apart block ∧
    (span e (val e)).Apart ⟨argv0, m.proc.speArgvLast⟩
  apart : todo.Pairwise (fun a b => (span a (val a)).Apart (span b (val b)))
  kept : List.Forall₂ (fun e e' => Holds m.proc.mem e' (val e) ∧
    (span e' (val e)).Apart ⟨argv0, m.proc.speArgvLast⟩ ∧
    (span e' (val e)).Apart ⟨m.p, block.stop⟩ ∧
    ∀ t ∈ todo, (span e' (val e)).Apart (span t (val t))) done m.environ
  begun : block.start ≤ m.p
  room : m.p + (todo.map (fun e => (val e).length + 1)).sum ≤ block.stop
  inside : block.stop ≤ m.proc.mem.length
  args : m.proc.argv = argv
  copies : ∃ copies, m.proc.stores = stores ++ copies ∧
    ∀ x ∈ copies, block.start ≤ x.start ∧ x.stop ≤ block.stop

variable {argv : List Nat} {stores : List Extent} {todo done : List Nat} {m : Move} {e : Nat}

/-- A string that does not adjoin stays where it is. -/
theorem Moving.stay (h : Moving val block argv0 argv stores (e :: todo) done m)
    (hfar : m.proc.speArgvLast ≠ e) :
    Moving val block argv0 argv stores todo (done ++ [e]) (m.round e) := by
  have hround : m.round e = { m with environ := m.environ ++ [e] } := if_neg hfar
  obtain ⟨hholds, hblock, hregion⟩ := h.waiting e List.mem_cons_self
  obtain ⟨hpair, hpairs⟩ := List.pairwise_cons.mp h.apart
  have hroom := h.room
  rw [List.map_cons, List.sum_cons] at hroom
  rw [hround]
  refine ⟨h.region, h.free, fun t ht => h.waiting t (List.mem_cons_of_mem e ht), hpairs, ?_,
    h.begun, by dsimp only; omega, h.inside, h.args, h.copies⟩
  refine List.rel_append (h.kept.imp ?_) (List.Forall₂.cons ⟨hholds, hregion, ?_, hpair⟩ .nil)
  · rintro a b ⟨hb, hbregion, hbrest, hbtodo⟩
    exact ⟨hb, hbregion, hbrest, fun t ht => hbtodo t (List.mem_cons_of_mem e ht)⟩
  · exact hblock.part h.begun (Nat.le_refl _)

/-- The round on a string that adjoins. -/
theorem round_adjoins {v : Bytes} (hholds : Holds m.proc.mem e v)
    (hadjoins : m.proc.speArgvLast = e) :
    m.round e =
      { proc := { m.proc with
          mem := Block.overwrite m.proc.mem m.p (Spe.strncpy v (v.length + 1))
          speArgvLast := e + v.length + 1
          stores := m.proc.stores ++ [⟨m.p, m.p + (v.length + 1)⟩] }
        p := m.p + (v.length + 1)
        environ := m.environ ++ [m.p] } := by
  have hlen : m.proc.strlen e = v.length := congrArg List.length hholds.string
  simp only [Move.round, if_pos hadjoins, hlen, hholds.string, ProcMem.strncpy, Nat.add_assoc]

/-- One more store behind those that are in their place. -/
theorem stores_behind {P : Extent → Prop} {before now : List Extent} {x : Extent} (hx : P x)
    (h : ∃ xs, now = before ++ xs ∧ ∀ y ∈ xs, P y) :
    ∃ xs, now ++ [x] = before ++ xs ∧ ∀ y ∈ xs, P y := by
  obtain ⟨xs, rfl, hxs⟩ := h
  refine ⟨xs ++ [x], List.append_assoc _ _ _, ?_⟩
  exact List.forall_mem_append.mpr ⟨hxs, List.forall_mem_singleton.mpr hx⟩

/-- A string that adjoins is copied to the block. -/
theorem Moving.move (h : Moving val block argv0 argv stores (e :: todo) done m)
    (hadjoins : m.proc.speArgvLast = e) :
    Moving val block argv0 argv stores todo (done ++ [e]) (m.round e) := by
  obtain ⟨hholds, hblock, hregion⟩ := h.waiting e List.mem_cons_self
  obtain ⟨hpair, hpairs⟩ := List.pairwise_cons.mp h.apart
  have hroom := h.room
  rw [List.map_cons, List.sum_cons] at hroom
  have hbegun := h.begun
  have hinside := h.inside
  obtain ⟨mem', hmem'⟩ : ∃ mem', mem' =
    Block.overwrite m.proc.mem m.p (Spe.strncpy (val e) ((val e).length + 1)) := ⟨_, rfl⟩
  -- What is apart from the rest of the block is still there after the copy.
  have hstays : ∀ a v, Holds m.proc.mem a v → (span a v).Apart ⟨m.p, block.stop⟩ →
      Holds mem' a v := by
    intro a v hv hapart
    rw [hmem']
    refine hv.overwrite (hapart.part (Nat.le_refl _) ?_)
    rw [strncpy_length]
    dsimp only
    omega
  have hrest : ∀ x : Extent, x.Apart block → x.Apart ⟨m.p, block.stop⟩ :=
    fun x hx => hx.part hbegun (Nat.le_refl _)
  have hcopy : (span m.p (val e)).start = m.p ∧
      (span m.p (val e)).stop = m.p + ((val e).length + 1) := ⟨rfl, Nat.add_assoc _ _ _⟩
  have hinBlock : ∀ x : Extent, x.Apart block → x.Apart (span m.p (val e)) :=
    fun x hx => hx.part (by omega) (by omega)
  have hgrown : ∀ x : Extent, x.start < x.stop → x.Apart ⟨argv0, m.proc.speArgvLast⟩ →
      x.Apart (span e (val e)) → x.Apart ⟨argv0, e + (val e).length + 1⟩ := by
    intro x hx hold hnew
    exact apart_extend hx (hadjoins ▸ hold) hnew
  have hfree : block.Apart ⟨argv0, e + (val e).length + 1⟩ :=
    hgrown block (by omega) (h.free (by omega)) hblock.symm
  have hthere : Holds mem' e (val e) := hstays e _ hholds (hrest _ hblock)
  have hhere : Holds mem' m.p (val e) := by
    rw [hmem']
    exact holds_copy hholds.clean (by omega)
  rw [round_adjoins hholds hadjoins, ← hmem']
  refine ⟨⟨?_, e, val e, hthere, rfl⟩, fun _ => hfree, ?_, hpairs, ?_, by dsimp only; omega,
    by dsimp only; omega, ?_, h.args, ?_⟩
  · have hnonempty := h.region.nonempty
    dsimp only
    omega
  · intro t ht
    obtain ⟨hholdst, hblockt, hregiont⟩ := h.waiting t (List.mem_cons_of_mem e ht)
    exact ⟨hstays t _ hholdst (hrest _ hblockt), hblockt,
      hgrown _ (span_nonempty t _) hregiont (hpair t ht).symm⟩
  · refine List.rel_append (h.kept.imp ?_) (List.Forall₂.cons ⟨hhere, ?_, ?_, ?_⟩ .nil)
    · rintro a b ⟨hb, hbregion, hbrest, hbtodo⟩
      refine ⟨hstays b _ hb hbrest, ?_, ?_, fun t ht => hbtodo t (List.mem_cons_of_mem e ht)⟩
      · exact hgrown _ (span_nonempty b _) hbregion (hbtodo e List.mem_cons_self)
      · exact hbrest.part (by dsimp only; omega) (Nat.le_refl _)
    · exact (hfree.symm.part (by omega) (by omega)).symm
    · exact Or.inl (by rw [hcopy.2])
    · intro t ht
      exact (hinBlock _ (h.waiting t (List.mem_cons_of_mem e ht)).2.1).symm
  · rw [hmem', Block.overwrite_length]
    exact hinside
  · apply stores_behind _ h.copies
    dsimp only
    omega

/-- A round of the loop over `environ`. -/
theorem Moving.round (h : Moving val block argv0 argv stores (e :: todo) done m) :
    Moving val block argv0 argv stores todo (done ++ [e]) (m.round e) := by
  by_cases hadjoins : m.proc.speArgvLast = e
  · exact h.move hadjoins
  · exact h.stay hadjoins

/-- The loop over `environ`. -/
theorem Moving.loop (h : Moving val block argv0 argv stores todo done m) :
    Moving val block argv0 argv stores [] (done ++ todo) (todo.foldl Move.round m) := by
  induction todo generalizing done m with
  | nil => simpa using h
  | cons e todo ih => simpa using ih h.round

/-- The process that has a title: the strings of `environ` are in memory and apart from the
region, whose last byte is a NUL. -/
structure Titled (val : Nat → Bytes) (environ : List Nat) (argv0 last : Nat) (stores : List Extent)
    (s : ProcMem) : Prop where
  head : s.argv.head? = some argv0
  strings : List.Forall₂ (fun e e' => Holds s.mem e' (val e) ∧
    (span e' (val e)).Apart ⟨argv0, last + 1⟩) environ s.environ
  ended : s.speArgvLast = last
  start : argv0 ≤ last
  nul : s.mem[last]? = some 0
  writes : ∃ writes, s.stores = stores ++ writes ∧ ∀ x ∈ writes, argv0 ≤ x.start ∧ x.stop ≤ last

/-- `spe_init_proc_title` finds a region for the title and moves what is in it to the block. -/
theorem Layout.titled (h : s.Layout) {p : Nat} (hp : s.Fresh p)
    (hargv : s.argv.head? = some argv0) {s' : ProcMem}
    (hs' : s' = (s.speInitProcTitle (some p)).1) :
    Titled (stringAt s.mem) s.environ argv0 s'.speArgvLast s'.stores s' ∧
    ∃ copies, s'.stores = s.stores ++ copies ∧
      ∀ x ∈ copies, p ≤ x.start ∧ x.stop ≤ p + s.environSize := by
  have hlaid := h.laid hp
  obtain ⟨hregion, hstrings, hfree⟩ := hlaid.argvLoop hargv
  obtain ⟨s0, hs0⟩ : ∃ s0, s0 = s.calloc p s.environSize := ⟨_, rfl⟩
  rw [← hs0] at hlaid hregion hstrings hfree
  have hargs : s0.argv = s.argv ∧ s0.environ = s.environ ∧ s0.stores = s.stores := by
    rw [hs0]
    exact ⟨rfl, rfl, rfl⟩
  obtain ⟨hargs, henviron, hstores⟩ := hargs
  have hbegin : Moving (stringAt s.mem) ⟨p, p + s.environSize⟩ argv0 s.argv s.stores s.environ []
      ⟨{ s0 with speArgvLast := s0.argvLoop }, p, []⟩ := by
    have hroom := hlaid.room
    rw [henviron] at hroom hstrings
    refine ⟨hregion, hfree, ?_, ?_, .nil, Nat.le_refl _, hroom, hlaid.inside, hargs, [], ?_,
      by simp⟩
    · intro e he
      have hmem : e ∈ s0.argv ++ s0.environ := List.mem_append_right _ (henviron ▸ he)
      exact ⟨hlaid.holds e hmem, hlaid.free e hmem, hstrings e he⟩
    · rw [← henviron]
      exact (List.pairwise_append.mp hlaid.apart).2.1
    · rw [hstores, List.append_nil]
  have hend := hbegin.loop
  obtain ⟨m, hm⟩ : ∃ m, m = s.environ.foldl Move.round
    ⟨{ s0 with speArgvLast := s0.argvLoop }, p, []⟩ := ⟨_, rfl⟩
  rw [← hm, List.nil_append] at hend
  have hresult : s' = { m.proc with environ := m.environ,
                                    speArgvLast := m.proc.speArgvLast - 1 } := by
    rw [hs', hm, hs0]
    rfl
  have hnonempty := hend.region.nonempty
  obtain ⟨b, v, hv, hlast⟩ := hend.region.ended
  have hnul : m.proc.speArgvLast - 1 = b + v.length := by omega
  have hstop : m.proc.speArgvLast - 1 + 1 = m.proc.speArgvLast := by omega
  obtain ⟨copies, hcopied, hcopies⟩ := hend.copies
  subst hresult
  refine ⟨⟨?_, ?_, rfl, ?_, ?_, [], (List.append_nil _).symm, by simp⟩, copies, hcopied, hcopies⟩
  · rw [← hargv, ← hend.args]
  · dsimp only
    rw [hstop]
    exact hend.kept.imp (fun _ _ hkept => ⟨hkept.1, hkept.2.1⟩)
  · dsimp only
    omega
  · dsimp only
    rw [hnul]
    exact hv.nul

/-- A call of `spe_set_proc_title` writes to the region, up to its last byte. -/
theorem Titled.setTitle {environ : List Nat} {last : Nat}
    (h : Titled val environ argv0 last stores s) (title : Bytes) :
    Titled val environ argv0 last stores (s.speSetProcTitle title) := by
  obtain ⟨as, has⟩ : ∃ as, s.argv = argv0 :: as := List.head?_eq_some_iff.mp h.head
  have hset : s.speSetProcTitle title =
      { s with
        argv := [argv0]
        mem := Block.overwrite s.mem argv0 (Spe.strncpy title (last - argv0))
        stores := s.stores ++ [⟨argv0, argv0 + (last - argv0)⟩] } := by
    simp [speSetProcTitle, ProcMem.strncpy, has, h.ended]
  have hstart := h.start
  have hcount : (Spe.strncpy title (last - argv0)).length = last - argv0 := strncpy_length _ _
  rw [hset]
  refine ⟨rfl, h.strings.imp ?_, h.ended, hstart, ?_, ?_⟩
  · rintro e e' ⟨hholds, hapart⟩
    refine ⟨hholds.overwrite (hapart.part (Nat.le_refl _) ?_), hapart⟩
    rw [hcount]
    dsimp only
    omega
  · have hbehind := @Block.slice_overwrite_behind UInt8 s.mem
      (Spe.strncpy title (last - argv0)) argv0 last 1 (by omega)
    have hcell := congrArg (fun l => l[0]?) hbehind
    simp only [Block.slice, List.getElem?_take, List.getElem?_drop] at hcell
    exact hcell.trans h.nul
  · apply stores_behind _ h.writes
    dsimp only
    omega

/-- The strings of a process that has a title are what they were. -/
theorem Titled.values {environ : List Nat} {last : Nat}
    (h : Titled val environ argv0 last stores s) :
    s.environ.map (stringAt s.mem) = environ.map val := by
  have hsame := h.strings
  clear h
  generalize s.environ = now at hsame ⊢
  induction hsame with
  | nil => rfl
  | cons hkept _ ih => rw [List.map_cons, List.map_cons, ih, hkept.1.string]

/-- **The title of a process.**  After `spe_init_proc_title` has succeeded and any titles have
been set: every string of `environ` is what it was; `spe_init_proc_title` has copied to its block
only, `spe_set_proc_title` has written from `argv[0]` up to `spe_argv_last` only; the byte there
is a NUL, so that `argv[0]` ends there or before. -/
theorem title_safe (h : s.Layout) (hargv : s.argv.head? = some argv0) {p : Nat} (hp : s.Fresh p)
    {s₁ s₂ : ProcMem} (hinit : s.speInitProcTitle (some p) = (s₁, true)) {titles : List Bytes}
    (hrun : Run titleStep anyStep s₁ titles s₂) :
    s₂.environ.map (stringAt s₂.mem) = s.environ.map (stringAt s.mem) ∧
    (∃ copies, s₁.stores = s.stores ++ copies ∧
      ∀ x ∈ copies, p ≤ x.start ∧ x.stop ≤ p + s.environSize) ∧
    (∃ writes, s₂.stores = s₁.stores ++ writes ∧
      ∀ x ∈ writes, argv0 ≤ x.start ∧ x.stop ≤ s₁.speArgvLast) ∧
    s₂.argv.head? = some argv0 ∧ s₂.speArgvLast = s₁.speArgvLast ∧
    s₂.mem[s₁.speArgvLast]? = some 0 ∧ argv0 + s₂.strlen argv0 ≤ s₁.speArgvLast := by
  obtain ⟨htitled, hcopies⟩ := h.titled hp hargv (congrArg Prod.fst hinit).symm
  have hend := hrun.invariant (Titled (stringAt s.mem) s.environ argv0 s₁.speArgvLast s₁.stores)
    htitled (by
      rintro s title s' hinv _ hstep
      obtain rfl := Option.some.inj hstep
      exact hinv.setTitle title)
  refine ⟨hend.values, hcopies, hend.writes, hend.head, hend.ended, hend.nul, ?_⟩
  have hstart := hend.start
  have hnul : s₂.mem[argv0 + (s₁.speArgvLast - argv0)]? = some 0 := by
    rw [Nat.add_sub_cancel' hstart]
    exact hend.nul
  have hlength : s₂.strlen argv0 ≤ s₁.speArgvLast - argv0 := stringAt_length_le hnul
  omega

/-- `argv[0]` is "a", and "b" and "c" of `environ` adjoin it in turn; behind them is room for a
block of four bytes. -/
def adjoining : ProcMem where
  mem := [0, 97, 0, 98, 0, 99, 0, 1, 1, 1, 1]
  argv := [1]
  environ := [3, 5]
  speArgvLast := 0
  stores := []

/-- A title is set that is longer than the region. -/
theorem adjoining_safe :
    ∃ s₁ s₂, adjoining.speInitProcTitle (some 7) = (s₁, true) ∧
      exec titleStep s₁ [[115, 112, 101, 58, 32, 119]] = some s₂ ∧
      s₂.mem = [0, 115, 112, 101, 58, 32, 0, 98, 0, 99, 0] ∧
      s₂.environ.map (stringAt s₂.mem) = adjoining.environ.map (stringAt adjoining.mem) :=
  ⟨_, _, rfl, rfl, by decide, (title_safe (s := adjoining) (p := 7)
    ⟨by decide, by decide, by decide, by decide⟩ rfl ⟨by decide, by decide⟩ rfl
    (Run.single (e := [115, 112, 101, 58, 32, 119]) rfl trivial)).1⟩

end ProcMem

end Spe
