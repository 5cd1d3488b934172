import Spe.Opt
import Spe.ReadAlloc

/-!
# The turns of the loop that reads a config file

`optTurns` are the turns of the loop of `spe_opt_create`.  The call for a line hands over a line
with its end, or all that has been read when a read delivers nothing (`OptTurn.Hands`); the loop
ends when `spe_io_readuntil` answers 0 or less, and returns true whichever of the two it was.
What `read_common` has left over is handed over in both cases, and nobody looks at the result of
its `spe_buf_append`.

A turn is defined when none of its size computations wraps (`OptTurn.Defined`).  Lines of at most
85899345 bytes are short enough for that (`OptTurn.defined_of_short`).
-/

namespace Spe

open Transition

/-! ## Lines -/

/-- The lines of a file: what stands between the line ends. -/
def linesOf (content : Bytes) : List Bytes := content.splitOn 10

/-- The lines of a file with their ends. -/
def withEnds : List Bytes → List Bytes
  | [] => []
  | [line] => [line]
  | line :: next :: lines => (line ++ [10]) :: withEnds (next :: lines)

/-- No NUL stands before a line end. -/
def EndsClear (content : Bytes) : Prop := ∀ line ∈ (linesOf content).dropLast, (0 : UInt8) ∉ line

/-- The length of a line with its end for which no size computation wraps, whatever sizes the
buffers have. -/
def LINE_SHORT : Nat := 85899345

/-- The lines with their ends are short. -/
def ShortLines (content : Bytes) : Prop :=
  ∀ line ∈ withEnds (linesOf content), line.length ≤ LINE_SHORT

/-- The first line of a file and the others. -/
theorem linesOf_line {l : Bytes} (rest : Bytes) (h : (10 : UInt8) ∉ l) :
    linesOf (l ++ 10 :: rest) = l :: linesOf rest :=
  List.splitOn_append_cons_self_of_not_mem h rest

/-- A file without a line end is one line. -/
theorem linesOf_last {l : Bytes} (h : (10 : UInt8) ∉ l) : linesOf l = [l] :=
  List.splitOn_eq_singleton h

/-- The lines with their ends begin with the first line and its end. -/
theorem withEnds_line (l rest : Bytes) :
    withEnds (l :: linesOf rest) = (l ++ [10]) :: withEnds (linesOf rest) := by
  obtain ⟨next, lines, hlines⟩ :=
    List.exists_cons_of_ne_nil (List.splitOn_ne_nil (10 : UInt8) rest)
  have hlines : linesOf rest = next :: lines := hlines
  rw [hlines, withEnds]

/-- No NUL stands before the first line end, nor before the others. -/
theorem endsClear_line {l : Bytes} (rest : Bytes) (h : (10 : UInt8) ∉ l) :
    EndsClear (l ++ 10 :: rest) ↔ (0 : UInt8) ∉ l ∧ EndsClear rest := by
  have hsome : linesOf rest ≠ [] := List.splitOn_ne_nil _ _
  unfold EndsClear
  rw [linesOf_line rest h, List.dropLast_cons_of_ne_nil hsome, List.forall_mem_cons]

/-- A file without NUL. -/
theorem endsClear_of_clean {content : Bytes} (h : (0 : UInt8) ∉ content) : EndsClear content := by
  intro line hline hmem
  have hin : line ∈ linesOf content := List.dropLast_subset _ hline
  unfold linesOf at hin
  rw [← Search.cut_singleton] at hin
  exact h (Search.mem_of_mem_cut hin hmem)

/-- The first line is short, and so are the others. -/
theorem shortLines_line {l : Bytes} (rest : Bytes) (h : (10 : UInt8) ∉ l) :
    ShortLines (l ++ 10 :: rest) ↔ l.length + 1 ≤ LINE_SHORT ∧ ShortLines rest := by
  unfold ShortLines
  rw [linesOf_line rest h, withEnds_line, List.forall_mem_cons, List.length_append]
  rfl

/-- The first line of what remains. -/
theorem shortest_newline {body : Bytes} (rest : Bytes) (h : (10 : UInt8) ∉ body) :
    shortest (.readUntil (some newline)) (body ++ 10 :: rest) = some (body.length + 1) := by
  rw [shortest_readUntil]
  have hfind : Search.find newline.1 (body ++ 10 :: rest) = some body.length :=
    Search.find_singleton h
  rw [hfind]
  rfl

/-- The request for a line asks for something. -/
theorem newline_nonempty : Request.Nonempty (.readUntil (some newline)) :=
  ⟨newline, rfl, List.cons_ne_nil 10 []⟩

/-- The frame of a line is the line with its end. -/
theorem codeFrame_newline {p : Bytes} {n : Nat}
    (h : codeFrame (.readUntil (some newline)) p = some n) :
    ∃ l, p.take n = l ++ [10] ∧ (10 : UInt8) ∉ l ∧ (0 : UInt8) ∉ l := by
  obtain ⟨hshort, hclean⟩ := shortest_of_codeFrame newline_nonempty h
  have hnul := hclean n hshort
  rw [shortest_readUntil] at hshort
  obtain ⟨i, hi, rfl⟩ := Option.map_eq_some_iff.mp hshort
  have htake : p.take (i + newline.1.length) = p.take i ++ [10] := Search.take_of_find hi
  refine ⟨p.take i, htake, ?_, ?_⟩
  · intro hmem
    obtain ⟨left, right, hsplit, hleft⟩ := List.eq_append_cons_of_mem hmem
    have hfirst : Search.find [10] (p.take i) = some left.length := by
      rw [hsplit]
      exact Search.find_singleton hleft
    have hbound := Search.find_bound hfirst
    have hwhole := Search.find_append (p.drop i) hfirst
    rw [List.take_append_drop] at hwhole
    have hsame : some left.length = some i := hwhole.symm.trans hi
    obtain rfl := Option.some.inj hsame
    simp only [List.length_take, List.length_singleton] at hbound
    omega
  · intro hmem
    rw [htake] at hnul
    exact hnul (List.mem_append_left _ hmem)

/-- A line that is there with its end has a frame when no NUL stands in it. -/
theorem codeFrame_of_line {l : Bytes} (later : Bytes) (hl : (10 : UInt8) ∉ l)
    (hnul : (0 : UInt8) ∉ l) :
    codeFrame (.readUntil (some newline)) (l ++ 10 :: later) = some (l.length + 1) := by
  have hshort := shortest_newline later hl
  refine codeFrame_of_shortest newline_nonempty hshort ?_
  intro k hk
  obtain rfl := Option.some.inj (hshort.symm.trans hk)
  have htake : (l ++ 10 :: later).take (l.length + 1) = l ++ [10] := by
    rw [List.take_length_add_append]
    rfl
  rw [htake]
  simp [hnul]

/-- What has no frame and no NUL before a line end has no line end. -/
theorem no_line {rest : Bytes} (hframe : codeFrame (.readUntil (some newline)) rest = none)
    (hclear : EndsClear rest) : (10 : UInt8) ∉ rest := by
  intro hmem
  obtain ⟨l, later, rfl, hl⟩ := List.eq_append_cons_of_mem hmem
  obtain ⟨hnul, _⟩ := (endsClear_line later hl).mp hclear
  cases hframe.symm.trans (codeFrame_of_line later hl hnul)

/-- A first part without a frame is short. -/
theorem short_of_no_frame {p rest : Bytes} (hframe : codeFrame (.readUntil (some newline)) p = none)
    (hclear : EndsClear (p ++ rest)) (hshort : ShortLines (p ++ rest)) :
    p.length ≤ LINE_SHORT := by
  by_cases hmem : (10 : UInt8) ∈ p ++ rest
  · obtain ⟨l, later, hsplit, hl⟩ := List.eq_append_cons_of_mem hmem
    rw [hsplit] at hclear hshort
    obtain ⟨hnul, _⟩ := (endsClear_line later hl).mp hclear
    obtain ⟨hlen, _⟩ := (shortLines_line later hl).mp hshort
    by_contra hlong
    -- the first line stands in the part, and so does its frame
    have hline : l ++ [10] <+: p := by
      refine List.prefix_of_prefix_length_le ⟨later, ?_⟩ (List.prefix_append p rest) ?_
      · rw [hsplit, List.append_assoc]
        rfl
      · rw [List.length_append, List.length_singleton]
        omega
    obtain ⟨more, hmore⟩ := hline
    have hpart : p = l ++ 10 :: more := by rw [← hmore, List.append_assoc]; rfl
    rw [hpart] at hframe
    cases hframe.symm.trans (codeFrame_of_line more hl hnul)
  · unfold ShortLines at hshort
    rw [linesOf_last hmem, withEnds, List.forall_mem_singleton, List.length_append] at hshort
    omega

/-! ## A call for a line -/

/-- How the reads for a line end: with the line, or with a read that delivers nothing. -/
structure Fetches (io : Io) (fd : Descriptor) (f : Fetched) (r : IoResult) (got : Bytes) :
    Prop where
  held : f.held = io.rbuf.bytes ++ got
  rest : fd.rest = got ++ r.fd.rest
  ended : (f.ret = none ∧ ∃ n : Nat, codeFrame (.readUntil (some newline)) f.held = some n ∧
      f.handed = some n ∧ r.ret = n ∧ r.io.closed = io.closed ∧ r.io.error = io.error) ∨
    ∃ ret, f.ret = some ret ∧ codeFrame (.readUntil (some newline)) f.held = none ∧
      f.handed = some f.held.length ∧ r.ret = ret.value ∧ ret.value ≤ 0 ∧
      (0 ≤ ret.value → r.fd.rest = [])

/-- The reads after a first part. -/
theorem Fetches.before {io io' : Io} {fd : Descriptor} {f : Fetched} {r : IoResult}
    {first got : Bytes} (hrbuf : io'.rbuf.bytes = io.rbuf.bytes ++ first)
    (hclosed : io'.closed = io.closed) (herror : io'.error = io.error) (hpre : first <+: fd.rest)
    (h : Fetches io' (fd.advance first.length) f r got) : Fetches io fd f r (first ++ got) := by
  obtain ⟨hrest, _⟩ := Descriptor.advance_spec hpre
  obtain ⟨hheld, hmore, hended⟩ := h
  refine ⟨by rw [hheld, hrbuf, List.append_assoc], by rw [hrest, hmore, List.append_assoc], ?_⟩
  rw [hclosed, herror] at hended
  exact hended

/-- One `read` of the loop: it is interrupted, it delivers bytes, the file is at its end, or it
fails. -/
theorem read_any (b : ByteBuf) (cut : Cut) (fresh : Alloc) (fd : Descriptor) :
    ((b.readFdAppend BUF_LEN fresh (cut.answer fd)).1.bytes = b.bytes ∧
      ((b.readFdAppend BUF_LEN fresh (cut.answer fd)).2 = .zero → fd.rest = []) ∧
      ∀ n, (b.readFdAppend BUF_LEN fresh (cut.answer fd)).2 ≠ .got n) ∨
    ∃ got, (b.readFdAppend BUF_LEN fresh (cut.answer fd)).2 = .got got.length ∧
      (b.readFdAppend BUF_LEN fresh (cut.answer fd)).1.bytes = b.bytes ++ got ∧
      got <+: fd.rest := by
  obtain ⟨_, _, _, ⟨hret, _, hbytes⟩ | ⟨room, hroom, hret, hbytes⟩⟩ :=
    bufReadFdAppend_spec fresh (cut.answer fd) b.wf (holds_exact _) (appendFits_exact b.buf BUF_LEN)
  · have hret : (b.readFdAppend BUF_LEN fresh (cut.answer fd)).2 = .bufError := hret
    left
    rw [hret]
    exact ⟨hbytes, by rintro ⟨⟩, by rintro n ⟨⟩⟩
  · have hret : (b.readFdAppend BUF_LEN fresh (cut.answer fd)).2 = (cut.answer fd).ret room := hret
    have hbytes : (b.readFdAppend BUF_LEN fresh (cut.answer fd)).1.bytes =
      b.bytes ++ (cut.answer fd).bytes room := hbytes
    rw [hret, hbytes]
    cases cut with
    | fail e =>
        left
        exact ⟨List.append_nil _, by rintro ⟨⟩, by rintro n ⟨⟩⟩
    | deliver n =>
        by_cases hend : fd.rest = []
        · left
          have hanswer : (Cut.deliver n).answer fd = .eof := if_pos hend
          rw [hanswer]
          exact ⟨List.append_nil _, fun _ => hend, by rintro n ⟨⟩⟩
        · right
          have hpos : 0 < room := by unfold BUF_LEN at hroom; omega
          obtain ⟨got, hgot, hdata, hpre, _⟩ := Cut.answer_deliver n hpos hend
          exact ⟨got, hgot, by rw [hdata], hpre⟩

/-- The checks at the head of the loop count the bytes of the line. -/
theorem checkType_newline {io : Io} (buf : ByteBuf) (al : Alloc)
    (hreq : io.request = some (.readUntil (some newline))) :
    match codeFrame (.readUntil (some newline)) io.rbuf.bytes with
    | none => io.checkType buf al = none
    | some n => ∃ io' buf', io.checkType buf al = some (io', buf', n) ∧
        io'.closed = io.closed ∧ io'.error = io.error := by
  unfold Io.request at hreq
  unfold Io.checkType
  cases htype : io.rtype with
  | readUntil =>
      rw [htype] at hreq
      have hdelim : io.delim = newline := by simpa using hreq
      rw [← search_frame, hdelim]
      dsimp only
      cases io.rbuf.search newline.1 with
      | none => rfl
      | some pos => exact ⟨_, _, rfl, rfl, rfl⟩
  | _ =>
      rw [htype] at hreq
      cases hreq

/-- The loop of `read_common` when the line is there. -/
theorem readCommon_line {io : Io} {buf : ByteBuf} {al : Alloc} {fd : Descriptor}
    {cuts : List (Cut × Alloc)} {r : IoResult} {n : Nat}
    (hreq : io.request = some (.readUntil (some newline)))
    (hframe : codeFrame (.readUntil (some newline)) io.rbuf.bytes = some n)
    (h : io.readCommon buf al fd cuts = some r) :
    ∃ f got, io.fetch fd cuts = some f ∧ Fetches io fd f r got := by
  have hcheck := checkType_newline buf al hreq
  rw [hframe] at hcheck
  obtain ⟨io', buf', hsome, hclosed, herror⟩ := hcheck
  have hfetch := (readCommon_frame buf al fd cuts (by rw [hreq]; exact hframe)).1
  have hcall : io.readCommon buf al fd cuts = some ⟨io', buf', fd, n⟩ := by
    cases cuts with
    | nil => rw [Io.readCommon, hsome]
    | cons turn cuts => rw [Io.readCommon, hsome]
  obtain rfl := Option.some.inj (hcall.symm.trans h)
  exact ⟨_, [], hfetch, (List.append_nil _).symm, rfl,
    Or.inl ⟨rfl, n, hframe, rfl, rfl, hclosed, herror⟩⟩

/-- A read that delivers nothing ends the loop: all that has been held is handed over. -/
theorem Fetches.last {io : Io} {fd : Descriptor} {b : ByteBuf} (hbytes : b.bytes = io.rbuf.bytes)
    (hframe : codeFrame (.readUntil (some newline)) io.rbuf.bytes = none) (ret : ReadRet)
    {io' : Io} {buf : ByteBuf} {al : Alloc} {value : Int} (hvalue : value = ret.value)
    (hle : value ≤ 0) (hend : 0 ≤ value → fd.rest = []) :
    Fetches io fd ⟨b, some ret, some b.bytes.length⟩ (io'.copyRest buf al fd value) [] := by
  refine ⟨hbytes.trans (List.append_nil _).symm, rfl,
    Or.inr ⟨ret, rfl, ?_, rfl, hvalue, hvalue ▸ hle, hvalue ▸ hend⟩⟩
  exact (congrArg _ hbytes).trans hframe

/-- **The loop of `read_common`**, whatever its reads and allocations do. -/
theorem readCommon_fetches {io : Io} {buf : ByteBuf} {al : Alloc} {fd : Descriptor}
    {cuts : List (Cut × Alloc)} {r : IoResult}
    (hreq : io.request = some (.readUntil (some newline)))
    (h : io.readCommon buf al fd cuts = some r) :
    ∃ f got, io.fetch fd cuts = some f ∧ Fetches io fd f r got := by
  induction cuts generalizing io fd with
  | nil =>
      cases hframe : codeFrame (.readUntil (some newline)) io.rbuf.bytes with
      | none =>
          have hcheck := checkType_newline buf al hreq
          rw [hframe] at hcheck
          rw [Io.readCommon, hcheck] at h
          cases h
      | some n => exact readCommon_line hreq hframe h
  | cons turn cuts ih =>
      obtain ⟨cut, fresh⟩ := turn
      cases hframe : codeFrame (.readUntil (some newline)) io.rbuf.bytes with
      | some n => exact readCommon_line hreq hframe h
      | none =>
          have hcheck := checkType_newline buf al hreq
          rw [hframe] at hcheck
          rw [Io.readCommon, hcheck] at h
          rw [Io.fetch, hreq, Option.bind_some, hframe]
          dsimp only at h ⊢
          rcases read_any io.rbuf cut fresh fd with
            ⟨hbytes, hzero, hnot⟩ | ⟨got, hret, hbytes, hpre⟩
          · -- nothing has been delivered: an interruption goes on, everything else ends the loop
            have hlast := @Fetches.last io fd _ hbytes hframe
            cases hret : (io.rbuf.readFdAppend BUF_LEN fresh (cut.answer fd)).2 with
            | got n => exact absurd hret (hnot n)
            | zero =>
                rw [hret] at h
                obtain rfl := Option.some.inj h
                exact ⟨_, [], rfl, hlast .zero rfl (Int.le_refl 0) fun _ => hzero hret⟩
            | bufError =>
                rw [hret] at h
                obtain rfl := Option.some.inj h
                exact ⟨_, [], rfl, hlast .bufError rfl (by decide)
                  fun hneg => absurd hneg (by decide)⟩
            | fail e =>
                rw [hret] at h
                cases e with
                | eintr =>
                    obtain ⟨f, got, hfetch, hmoves⟩ := @ih { io with
                      rbuf := (io.rbuf.readFdAppend BUF_LEN fresh (cut.answer fd)).1 } fd hreq h
                    refine ⟨f, got, hfetch, ?_⟩
                    obtain ⟨hheld, hrest, hended⟩ := hmoves
                    exact ⟨by rw [hheld, hbytes], hrest, hended⟩
                | _ =>
                    obtain rfl := Option.some.inj h
                    exact ⟨_, [], rfl, hlast (.fail _) rfl (by decide)
                      fun hneg => absurd hneg (by decide)⟩
          · rw [hret] at h ⊢
            obtain ⟨f, later, hfetch, hmoves⟩ := @ih { io with
              rbuf := (io.rbuf.readFdAppend BUF_LEN fresh (cut.answer fd)).1 } _ hreq h
            have hall := @Fetches.before io { io with
              rbuf := (io.rbuf.readFdAppend BUF_LEN fresh (cut.answer fd)).1 } fd f r got later
              hbytes rfl rfl hpre hmoves
            exact ⟨f, got ++ later, hfetch, hall⟩

section Open

variable {io : Io} (fd : Descriptor) (dest : ByteBuf) (al : Alloc) (cuts : List (Cut × Alloc))

/-- On a reader that is open a call for a line goes into the loop of `read_common`. -/
theorem readuntil_open (hclosed : io.closed = false) (herror : io.error = false) :
    io.readuntil (some newline) dest al fd cuts =
      Io.readCommon { io with rtype := .readUntil, delim := newline } dest al fd cuts := by
  unfold Io.readuntil Io.guarded
  simp [hclosed, herror]

/-- And so do its reads. -/
theorem fetchCall_open (hclosed : io.closed = false) (herror : io.error = false) :
    io.fetchCall fd ⟨.readUntil (some newline), dest, al, cuts⟩ =
      Io.fetch { io with rtype := .readUntil, delim := newline } fd cuts :=
  if_neg (by simp [hclosed, herror])

end Open

/-- A call for a line on a reader that is open. -/
theorem readuntil_fetches {io : Io} {dest : ByteBuf} {al : Alloc} {fd : Descriptor}
    {cuts : List (Cut × Alloc)} {r : IoResult} (hclosed : io.closed = false)
    (herror : io.error = false) (h : io.readuntil (some newline) dest al fd cuts = some r) :
    ∃ f got, io.fetchCall fd ⟨.readUntil (some newline), dest, al, cuts⟩ = some f ∧
      Fetches io fd f r got ∧ r.Shows f dest al False := by
  have hfetchCall := fetchCall_open fd dest al cuts hclosed herror
  obtain ⟨io', hio'⟩ : ∃ io' : Io, io' = { io with rtype := .readUntil, delim := newline } :=
    ⟨_, rfl⟩
  rw [readuntil_open fd dest al cuts hclosed herror, ← hio'] at h
  rw [← hio'] at hfetchCall
  have hreq : io'.request = some (.readUntil (some newline)) := by
    rw [hio']
    rfl
  obtain ⟨f, got, hfetch, hmoves⟩ := readCommon_fetches hreq h
  refine ⟨f, got, hfetchCall.trans hfetch, ?_, ?_⟩
  · rw [hio'] at hmoves
    exact ⟨hmoves.held, hmoves.rest, hmoves.ended⟩
  · have hok : io'.error = false := by rw [hio']; exact herror
    rcases readCommon_fetched dest al fd cuts hok with ⟨hnone, _⟩ | ⟨f', r', hf', hr', hshows⟩
    · cases hnone.symm.trans hfetch
    · obtain rfl := Option.some.inj (hfetch.symm.trans hf')
      obtain rfl := Option.some.inj (h.symm.trans hr')
      exact hshows

section Fetches

variable {io : Io} {fd : Descriptor} {f : Fetched} {r : IoResult} {got : Bytes}

/-- What is handed over has been held. -/
theorem Fetches.handed_le (h : Fetches io fd f r got) :
    ∃ n, f.handed = some n ∧ n ≤ f.held.length := by
  rcases h.ended with ⟨_, n, hframe, hn, _⟩ | ⟨_, _, _, hn, _⟩
  · exact ⟨n, hn, codeFrame_bound hframe⟩
  · exact ⟨_, hn, Nat.le_refl _⟩

/-- All bytes have been read when none are left. -/
theorem Fetches.all_iff (h : Fetches io fd f r got) :
    f.held = io.rbuf.bytes ++ fd.rest ↔ r.fd.rest = [] := by
  rw [h.held, h.rest, List.append_cancel_left_eq, List.self_eq_append_right]

/-- The call returns what the last read has returned, if that is negative. -/
theorem Fetches.negative_iff (h : Fetches io fd f r got) : f.Negative ↔ r.ret < 0 := by
  rcases h.ended with ⟨hret, n, _, _, hcount, _⟩ | ⟨ret, hret, _, _, hcount, _⟩
  · constructor
    · rintro ⟨ret, hsome, _⟩
      cases hret.symm.trans hsome
    · intro hless
      omega
  · rw [hcount]
    constructor
    · rintro ⟨ret', hsome, hless⟩
      obtain rfl := Option.some.inj (hret.symm.trans hsome)
      exact hless
    · exact fun hless => ⟨ret, hret, hless⟩

/-- A text that is appended to an empty buffer is there exactly when the append is afforded. -/
theorem affords_iff {line : ByteBuf} {al : Alloc} {n : Nat} (hline : line.bytes = [])
    (hn : f.handed = some n) :
    f.Affords line al True ↔ (line.append (f.held.take n) al).1.bytes = f.held.take n := by
  have hfits : (line.append (f.held.take n) al).1.bytes = f.held.take n ↔
      (Short line (f.held.take n).length al → f.held.take n = []) := by
    rw [ByteBuf.bytes_append, hline, List.nil_append, ← append_false_iff]
    cases (line.append (f.held.take n) al).2 with
    | true => simp
    | false =>
        rw [if_neg Bool.false_ne_true]
        exact ⟨fun h _ => h.symm, fun h => (h rfl).symm⟩
  rw [hfits]
  constructor
  · exact fun h hshort => (h n hn hshort).1
  · intro h k hk hshort
    obtain rfl := Option.some.inj (hn.symm.trans hk)
    exact ⟨h hshort, trivial⟩

end Fetches

/-! ## The reads of a call are defined -/

/-- `spe_buf_strim` leaves the block. -/
theorem ByteBuf.size_strim (b : ByteBuf) (token : CStr) :
    (b.strim token).buf.size = b.buf.size := by
  show (bufStrim b.buf token).size = b.buf.size
  unfold bufStrim bufRstrim bufLstrim bufLconsume
  dsimp only
  rw [terminate_size]
  split
  · rw [terminate_size]
  · rfl

/-- A buffer that has been read into has a block. -/
theorem ByteBuf.read_not_null (b : ByteBuf) (len : Nat) {al : Alloc} (r : ReadRes)
    (hal : al.isSome) : (b.readFdAppend len al r).1.null = false := by
  have hsize : 0 < (b.readFdAppend len al r).1.buf.size := by
    refine Nat.lt_of_lt_of_eq ?_ (bufReadFdAppend_size .exact b.buf len al r).symm
    split
    · obtain ⟨_, _, _, _, _, hsome, _⟩ := @bufExpand_spec .exact b.buf (b.buf.size + len + 1) al
        b.wf trivial (by omega) (Nat.succ_pos _)
      refine Nat.lt_of_lt_of_eq ?_ (hsome hal).2.symm
      omega
    · rename_i hroom
      have hroom : ¬ b.buf.size - b.buf.len < len + 1 := hroom
      show 0 < b.buf.size
      omega
  simpa [ByteBuf.null] using isSome_of_size_pos (b.readFdAppend len al r).1.wf hsize

section Reads

variable {io : Io} {fd : Descriptor} {cuts : List (Cut × Alloc)} {f : Fetched}

/-- The reads for a short line fit. -/
theorem readsFit_short (hreq : io.request = some (.readUntil (some newline)))
    (hsize : io.rbuf.buf.size < 2 ^ 28) (hclear : EndsClear (io.rbuf.bytes ++ fd.rest))
    (hshort : ShortLines (io.rbuf.bytes ++ fd.rest)) : io.ReadsFit fd cuts := by
  induction cuts generalizing io fd with
  | nil => trivial
  | cons turn cuts ih =>
      obtain ⟨cut, fresh⟩ := turn
      intro hframe
      rw [hreq, Option.bind_some] at hframe
      have hlen := short_of_no_frame hframe hclear hshort
      have hfits : io.rbuf.Fits BUF_LEN := by
        by_cases hroom : BUF_LEN + 1 ≤ io.rbuf.buf.size - io.rbuf.buf.len
        · exact ByteBuf.fits_of_room (by omega) hroom
        · rw [io.rbuf.len_eq] at hroom
          refine ByteBuf.fits_of_lt ?_
          unfold BUF_LEN LINE_SHORT at *
          omega
      refine ⟨hfits, ?_⟩
      intro fd' hfd'
      have hnext := hfits.read_size fresh (cut.answer fd) hsize
      rcases read_any io.rbuf cut fresh fd with ⟨hbytes, _, hnot⟩ | ⟨got, hret, hbytes, hpre⟩
      · have hsame : fd' = fd := by
          cases hret : (io.rbuf.readFdAppend BUF_LEN fresh (cut.answer fd)).2 with
          | got n => exact absurd hret (hnot n)
          | fail e =>
              rw [hret] at hfd'
              cases e with
              | eintr => exact (Option.some.inj hfd').symm
              | _ => cases hfd'
          | _ =>
              rw [hret] at hfd'
              cases hfd'
        rw [← hbytes] at hclear hshort
        exact @ih { io with rbuf := (io.rbuf.readFdAppend BUF_LEN fresh (cut.answer fd)).1 } fd'
          hreq hnext (hsame ▸ hclear) (hsame ▸ hshort)
      · rw [hret] at hfd'
        obtain rfl := Option.some.inj hfd'
        obtain ⟨hrest, _⟩ := Descriptor.advance_spec hpre
        rw [hrest, ← List.append_assoc, ← hbytes] at hclear hshort
        exact @ih { io with rbuf := (io.rbuf.readFdAppend BUF_LEN fresh (cut.answer fd)).1 } _ hreq
          hnext hclear hshort

/-- Reads that fit leave a block below `2 ^ 28` bytes below. -/
theorem fetch_small (hfits : io.ReadsFit fd cuts) (hsize : io.rbuf.buf.size < 2 ^ 28)
    (h : io.fetch fd cuts = some f) : f.source.buf.size < 2 ^ 28 := by
  induction cuts generalizing io fd with
  | nil =>
      rw [Io.fetch] at h
      split at h
      · obtain rfl := Option.some.inj h
        exact hsize
      · cases h
  | cons turn cuts ih =>
      obtain ⟨cut, fresh⟩ := turn
      rw [Io.fetch] at h
      split at h
      · obtain rfl := Option.some.inj h
        exact hsize
      · rename_i hframe
        obtain ⟨hread, hmore⟩ := hfits hframe
        have hnext := hread.read_size fresh (cut.answer fd) hsize
        dsimp only at h
        split at h
        · rename_i n hret
          rw [hret] at hmore
          exact ih (hmore _ rfl) hnext h
        · rename_i hret
          rw [hret] at hmore
          exact ih (hmore _ rfl) hnext h
        · obtain rfl := Option.some.inj h
          exact hnext

/-- When the allocations succeed and the reads are at most interrupted, the reads for a line end
with a buffer that has a block, and not with an error. -/
theorem fetch_good (hreq : io.request = some (.readUntil (some newline))) (hcuts : CutsGood cuts)
    (h : io.fetch fd cuts = some f) : f.source.null = false ∧ ¬ f.Negative := by
  have hline : ∀ (io : Io) {n : Nat}, io.request = some (.readUntil (some newline)) →
      (io.request.bind fun req => codeFrame req io.rbuf.bytes) = some n →
      io.rbuf.null = false := by
    intro io n hreq hframe
    rw [hreq, Option.bind_some] at hframe
    have hpos := codeFrame_pos newline_nonempty hframe
    have hbound := codeFrame_bound hframe
    exact ByteBuf.not_null (List.length_pos_iff.mp (by omega))
  have hnone : ∀ source handed, ¬ Fetched.Negative ⟨source, none, handed⟩ := by
    rintro source handed ⟨ret, hret, _⟩
    cases hret
  induction cuts generalizing io fd with
  | nil =>
      rw [Io.fetch] at h
      split at h
      · rename_i hframe
        obtain rfl := Option.some.inj h
        exact ⟨hline io hreq hframe, hnone _ _⟩
      · cases h
  | cons turn cuts ih =>
      obtain ⟨cut, fresh⟩ := turn
      obtain ⟨hfresh, hcut⟩ := hcuts _ List.mem_cons_self
      have hlater : CutsGood cuts := fun c hc => hcuts c (List.mem_cons_of_mem _ hc)
      rw [Io.fetch] at h
      split at h
      · rename_i hframe
        obtain rfl := Option.some.inj h
        exact ⟨hline io hreq hframe, hnone _ _⟩
      · dsimp only at h
        rcases read_cut io.rbuf fd hfresh hcut with ⟨hret, _⟩ | ⟨got, hret, _⟩ | ⟨hret, _⟩
        · rw [hret] at h
          exact @ih { io with rbuf := (io.rbuf.readFdAppend BUF_LEN fresh (cut.answer fd)).1 } fd
            hreq hlater h
        · rw [hret] at h
          exact @ih { io with rbuf := (io.rbuf.readFdAppend BUF_LEN fresh (cut.answer fd)).1 } _
            hreq hlater h
        · rw [hret] at h
          obtain rfl := Option.some.inj h
          refine ⟨io.rbuf.read_not_null BUF_LEN (cut.answer fd) hfresh, ?_⟩
          rintro ⟨ret, hzero, hneg⟩
          obtain rfl := Option.some.inj hzero
          exact absurd hneg (by decide)

end Reads

/-- What a call for a line hands over is short when the lines are. -/
theorem Fetches.short {io : Io} {fd : Descriptor} {f : Fetched} {r : IoResult} {got : Bytes}
    (h : Fetches io fd f r got) (hclear : EndsClear (io.rbuf.bytes ++ fd.rest))
    (hshort : ShortLines (io.rbuf.bytes ++ fd.rest)) {n : Nat} (hn : f.handed = some n) :
    (f.held.take n).length ≤ LINE_SHORT := by
  have hall : io.rbuf.bytes ++ fd.rest = f.held ++ r.fd.rest := by
    rw [h.held, h.rest, List.append_assoc]
  rw [hall] at hclear hshort
  rcases h.ended with ⟨_, k, hframe, hk, _⟩ | ⟨_, _, hframe, hk, _⟩
  · obtain rfl := Option.some.inj (hn.symm.trans hk)
    obtain ⟨l, htake, hl, _⟩ := codeFrame_newline hframe
    have hsplit : f.held ++ r.fd.rest = l ++ 10 :: (f.held.drop n ++ r.fd.rest) := by
      calc f.held ++ r.fd.rest
          = f.held.take n ++ f.held.drop n ++ r.fd.rest := by rw [List.take_append_drop]
        _ = l ++ 10 :: (f.held.drop n ++ r.fd.rest) := by
            rw [htake, List.append_assoc, List.append_assoc]
            rfl
    rw [hsplit] at hshort
    rw [htake, List.length_append]
    exact ((shortLines_line _ hl).mp hshort).1
  · have hlen := short_of_no_frame hframe hclear hshort
    rw [List.length_take]
    omega

/-- A short text fits an empty buffer. -/
theorem fits_clean {line : ByteBuf} {n : Nat} (hline : line.buf.size < 2 ^ 28)
    (hn : n ≤ LINE_SHORT) : line.clean.Fits n := by
  obtain ⟨hsize, hlen⟩ := line.size_clean
  unfold LINE_SHORT at hn
  by_cases hroom : n + 1 ≤ line.buf.size
  · refine ByteBuf.fits_of_room (by omega) ?_
    rw [hsize, hlen]
    exact hroom
  · refine ByteBuf.fits_of_lt ?_
    rw [hsize]
    omega

/-! ## Turns -/

/-- A turn of the loop of `spe_opt_create`: the section, the reader, the buffer, the file and the
options before it, and how its calls go. -/
structure OptTurn where
  sec : Bytes
  io : Io
  line : ByteBuf
  fd : Descriptor
  options : List OptEntry
  env : LineEnv

/-- A trimmed line that goes to `spe_buf_split`. -/
def Splits (line : Bytes) : Prop :=
  ¬ (line = [] ∨ line.head? = some 35) ∧ ¬ (line.head? = some 91 ∧ line.getLast? = some 93)

namespace OptTurn

variable (t : OptTurn)

/-- The call for a line. -/
def call : IoCall := newlineCall t.line t.env

/-- The bytes of the file that have not been handed over. -/
def remaining : Bytes := t.io.rbuf.bytes ++ t.fd.rest

/-- What the call leaves. -/
def result : Option IoResult :=
  t.io.readuntil (some newline) t.line.clean t.env.al t.fd t.env.cuts

/-- The text that the body of the loop gets. -/
def text : Bytes := t.result.elim [] fun r => r.buf.bytes

/-- What the body of the loop makes of it. -/
def body : Option LineDone :=
  t.result.bind fun r =>
    if r.buf.null then none else optLine t.sec (r.buf.strim lineBlank) t.options t.env

/-- The turn, unless a size has wrapped in the call. -/
def done : Option (IoResult × LineDone) :=
  if t.io.CallDefined t.fd t.call then
    t.result.bind fun r => t.body.map fun done => (r, done)
  else none

/-- No size computation of the turn wraps: neither in the call for a line, nor when the pieces of
the line are copied. -/
structure Defined : Prop where
  call : t.io.CallDefined t.fd t.call
  pieces : Splits (trimmed lineBlank t.text) →
    ∀ piece ∈ seenPieces 61 (trimmed lineBlank t.text), 25 * (piece.length + 1) < 2 ^ 32

/-- The append of what the reads have led to finds room or memory, and they do not fail before
all bytes of the file are read. -/
structure Undisturbed : Prop where
  append : ∀ f, t.io.fetchCall t.fd t.call = some f → f.Affords t.line.clean t.env.al True
  reads : ∀ f, t.io.fetchCall t.fd t.call = some f → f.Negative → f.held = t.remaining

end OptTurn

/-- The reader can read on, and the buffers have sizes as `buf_expand` gives them. -/
structure Io.Ready (io : Io) (line : ByteBuf) : Prop where
  opened : io.closed = false
  sound : io.error = false
  rbuf : io.rbuf.buf.size < 2 ^ 28
  line : line.buf.size < 2 ^ 28

/-- A fresh reader. -/
theorem Io.ready_create : Io.create.Ready .create := ⟨rfl, rfl, by decide, by decide⟩

/-- The turns of the loop of `spe_opt_create`. -/
def optTurns (sec : Bytes) (io : Io) (line : ByteBuf) (fd : Descriptor)
    (options : List OptEntry) : List LineEnv → List OptTurn
  | [] => []
  | env :: envs =>
      ⟨sec, io, line, fd, options, env⟩ ::
        match OptTurn.done ⟨sec, io, line, fd, options, env⟩ with
        | some (r, .next sec line options) =>
            if 0 < r.ret then optTurns sec r.io line r.fd options envs else []
        | _ => []

namespace OptTurn

variable {t : OptTurn} {r : IoResult} {done : LineDone}

/-- A turn that is done. -/
theorem done_spec (h : t.done = some (r, done)) :
    t.io.CallDefined t.fd t.call ∧ t.result = some r ∧ t.text = r.buf.bytes ∧
      r.buf.null = false ∧ t.body = some done ∧
      optLine t.sec (r.buf.strim lineBlank) t.options t.env = some done := by
  unfold OptTurn.done at h
  split at h
  · rename_i hdefined
    obtain ⟨r', hresult, h⟩ := Option.bind_eq_some_iff.mp h
    obtain ⟨done', hbody, h⟩ := Option.map_eq_some_iff.mp h
    obtain ⟨rfl, rfl⟩ := Prod.mk.inj h
    have hline := hbody
    unfold body at hline
    rw [hresult, Option.bind_some] at hline
    split at hline
    · cases hline
    · rename_i hnull
      refine ⟨hdefined, hresult, ?_, by simpa using hnull, hbody, hline⟩
      unfold text
      rw [hresult]
      rfl
  · cases h

/-- **A turn of the loop.**  It does not return, it rejects the file, it is the last one, or others
follow. -/
theorem turn_cases (t : OptTurn) (envs : List LineEnv) :
    (t.done = none ∧
      optLoop t.sec t.io t.line t.fd t.options (t.env :: envs) = none ∧
      optTurns t.sec t.io t.line t.fd t.options (t.env :: envs) = [t]) ∨
    (∃ r, t.done = some (r, .reject) ∧
      optLoop t.sec t.io t.line t.fd t.options (t.env :: envs) = some (false, t.options) ∧
      optTurns t.sec t.io t.line t.fd t.options (t.env :: envs) = [t]) ∨
    (∃ r sec line options, t.done = some (r, .next sec line options) ∧ ¬ 0 < r.ret ∧
      optLoop t.sec t.io t.line t.fd t.options (t.env :: envs) = some (true, options) ∧
      optTurns t.sec t.io t.line t.fd t.options (t.env :: envs) = [t]) ∨
    ∃ r sec line options, t.done = some (r, .next sec line options) ∧ 0 < r.ret ∧
      optLoop t.sec t.io t.line t.fd t.options (t.env :: envs) =
        optLoop sec r.io line r.fd options envs ∧
      optTurns t.sec t.io t.line t.fd t.options (t.env :: envs) =
        t :: optTurns sec r.io line r.fd options envs := by
  have hturns : optTurns t.sec t.io t.line t.fd t.options (t.env :: envs) =
      t :: match t.done with
        | some (r, .next sec line options) =>
            if 0 < r.ret then optTurns sec r.io line r.fd options envs else []
        | _ => [] := rfl
  have hloop : optLoop t.sec t.io t.line t.fd t.options (t.env :: envs) =
      match t.done with
      | none => none
      | some (_, .reject) => some (false, t.options)
      | some (r, .next sec line options) =>
          if 0 < r.ret then optLoop sec r.io line r.fd options envs else some (true, options) := by
    rw [optLoop]
    unfold OptTurn.done
    have hcall : t.io.CallDefined t.fd (newlineCall t.line t.env) ↔ t.io.CallDefined t.fd t.call :=
      Iff.rfl
    by_cases hdefined : t.io.CallDefined t.fd t.call
    · rw [if_pos hdefined, if_neg (not_not.mpr (hcall.mpr hdefined))]
      unfold body result
      cases t.io.readuntil (some newline) t.line.clean t.env.al t.fd t.env.cuts with
      | none => rfl
      | some r =>
          dsimp only [Option.bind_some]
          split
          · rfl
          · cases optLine t.sec (r.buf.strim lineBlank) t.options t.env with
            | none => rfl
            | some done => cases done <;> rfl
    · rw [if_neg hdefined, if_pos (mt hcall.mp hdefined)]
  cases hdone : t.done with
  | none =>
      rw [hdone] at hturns hloop
      exact Or.inl ⟨rfl, hloop, hturns⟩
  | some out =>
      obtain ⟨r, done⟩ := out
      rw [hdone] at hturns hloop
      cases done with
      | reject => exact Or.inr (Or.inl ⟨r, rfl, hloop, hturns⟩)
      | next sec line options =>
          dsimp only at hturns hloop
          right
          right
          by_cases hpos : 0 < r.ret
          · rw [if_pos hpos] at hturns hloop
            exact Or.inr ⟨r, sec, line, options, rfl, hpos, hloop, hturns⟩
          · rw [if_neg hpos] at hturns hloop
            exact Or.inl ⟨r, sec, line, options, rfl, hpos, hloop, hturns⟩

/-- What a turn hands over to the body of the loop, out of the bytes that remained: a line with
its end, or all that has been read. -/
structure Hands (t : OptTurn) (r : IoResult) (handed : Bytes) : Prop where
  parts : t.remaining = handed ++ (r.io.rbuf.bytes ++ r.fd.rest)
  text : t.text = handed ∨ t.text = []
  undisturbed : t.Undisturbed ↔ t.text = handed ∧ (r.ret < 0 → r.fd.rest = [])
  line : 0 < r.ret → r.io.closed = false ∧ r.io.error = false ∧
    ∃ l, handed = l ++ [10] ∧ (10 : UInt8) ∉ l ∧ (0 : UInt8) ∉ l
  last : ¬ 0 < r.ret → codeFrame (.readUntil (some newline)) handed = none ∧
    r.io.rbuf.bytes = [] ∧ (0 ≤ r.ret → r.fd.rest = [])
  short : EndsClear t.remaining → ShortLines t.remaining → handed.length ≤ LINE_SHORT
  fits : t.io.CallDefined t.fd t.call → t.line.clean.Fits handed.length
  rest : r.fd.rest.length ≤ t.fd.rest.length

/-- A turn is undisturbed when its append is afforded and a read that fails leaves nothing. -/
theorem undisturbed_iff {f : Fetched} {got : Bytes}
    (hfetch : t.io.fetchCall t.fd t.call = some f) (h : Fetches t.io t.fd f r got) :
    t.Undisturbed ↔
      f.Affords t.line.clean t.env.al True ∧ (r.ret < 0 → r.fd.rest = []) := by
  rw [← h.negative_iff, ← h.all_iff]
  constructor
  · exact fun hturn => ⟨hturn.append f hfetch, hturn.reads f hfetch⟩
  · rintro ⟨happend, hreads⟩
    constructor
    · intro f' hf'
      obtain rfl := Option.some.inj (hfetch.symm.trans hf')
      exact happend
    · intro f' hf'
      obtain rfl := Option.some.inj (hfetch.symm.trans hf')
      exact hreads

/-- **A turn** hands over a line, or all that has been read. -/
theorem hands (hready : t.io.Ready t.line) (hr : t.result = some r) :
    ∃ handed, t.Hands r handed := by
  obtain ⟨f, got, hfetch, hmoves, hshows⟩ := readuntil_fetches hready.opened hready.sound hr
  obtain ⟨n, hn, hbound⟩ := hmoves.handed_le
  have hconsumed := hshows.handed.consumed
  rw [hn, Option.getD_some] at hconsumed
  have hall : t.text = (t.line.clean.append (f.held.take n) t.env.al).1.bytes := by
    unfold OptTurn.text
    rw [hr]
    exact congrArg ByteBuf.bytes (hshows.dest n hn)
  have hclean := t.line.bytes_clean
  refine ⟨f.held.take n, ?_, ?_, ?_, ?_, ?_, ?_, ?_, ?_⟩
  · unfold OptTurn.remaining
    rw [hconsumed, ← List.append_assoc, List.take_append_drop, hmoves.held, hmoves.rest,
      List.append_assoc]
  · rw [hall, ByteBuf.bytes_append, hclean, List.nil_append]
    cases (t.line.clean.append (f.held.take n) t.env.al).2 with
    | true => exact Or.inl rfl
    | false => exact Or.inr rfl
  · rw [undisturbed_iff hfetch hmoves, affords_iff hclean hn, hall]
  · intro hpos
    rcases hmoves.ended with ⟨_, k, hframe, hk, _, hc, he⟩ | ⟨ret, _, _, _, hcount, hle, _⟩
    · obtain rfl := Option.some.inj (hn.symm.trans hk)
      exact ⟨hc.trans hready.opened, he.trans hready.sound, codeFrame_newline hframe⟩
    · omega
  · intro hnot
    rcases hmoves.ended with ⟨_, k, hframe, _, hcount, _⟩ | ⟨ret, _, hframe, hk, hcount, _, hend⟩
    · have hpos := codeFrame_pos newline_nonempty hframe
      omega
    · obtain rfl := Option.some.inj (hn.symm.trans hk)
      rw [List.take_length]
      refine ⟨hframe, by rw [hconsumed, List.drop_length], ?_⟩
      rw [hcount]
      exact hend
  · exact fun hclear hshort => hmoves.short hclear hshort hn
  · exact fun hdefined => hdefined.fits f hfetch n hn
  · rw [hmoves.rest, List.length_append]
    omega

/-- An undisturbed turn that is the last one hands over all that remained. -/
theorem Hands.whole {handed : Bytes} (h : t.Hands r handed) (hturn : t.Undisturbed)
    (hlast : ¬ 0 < r.ret) : t.remaining = handed := by
  obtain ⟨_, hrbuf, hend⟩ := h.last hlast
  have hdone : r.fd.rest = [] := by
    by_cases hneg : r.ret < 0
    · exact (h.undisturbed.mp hturn).2 hneg
    · exact hend (by omega)
  rw [h.parts, hrbuf, hdone, List.append_nil, List.append_nil]

/-- The reads of a turn. -/
theorem fetchCall_ready (hready : t.io.Ready t.line) :
    t.io.fetchCall t.fd t.call =
      Io.fetch { t.io with rtype := .readUntil, delim := newline } t.fd t.env.cuts :=
  fetchCall_open _ _ _ _ hready.opened hready.sound

/-- When the allocations succeed and the reads are at most interrupted, nothing disturbs a turn. -/
theorem undisturbed_of_good (hready : t.io.Ready t.line) (hgood : t.env.Good)
    (hr : t.result = some r) : t.Undisturbed := by
  obtain ⟨f, got, hfetch, hmoves, _⟩ := readuntil_fetches hready.opened hready.sound hr
  have hreads := (fetchCall_ready hready).symm.trans hfetch
  obtain ⟨_, hneg⟩ := fetch_good rfl hgood.cuts hreads
  rw [undisturbed_iff hfetch hmoves, ← hmoves.negative_iff]
  refine ⟨?_, fun hnegative => absurd hnegative hneg⟩
  rintro n _ ⟨hnone, _⟩
  have hal := hgood.al
  rw [hnone] at hal
  cases hal

/-- The body of the loop leaves the block of the line. -/
theorem optLine_size {sec sec' : Bytes} {line line' : ByteBuf} {options options' : List OptEntry}
    {env : LineEnv} (h : optLine sec line options env = some (.next sec' line' options')) :
    line'.buf.size = line.buf.size := by
  unfold optLine at h
  split at h
  · obtain ⟨_, rfl, _⟩ := LineDone.next.inj (Option.some.inj h)
    rfl
  · split at h
    · dsimp only at h
      split at h
      · cases h
      · obtain ⟨_, rfl, _⟩ := LineDone.next.inj (Option.some.inj h)
        exact line.size_strim headerBlank
    · unfold optPair at h
      split at h
      · split at h
        · cases h
        · split at h
          · cases h
          · split at h
            · split at h
              · cases h
              · obtain ⟨_, rfl, _⟩ := LineDone.next.inj (Option.some.inj h)
                rfl
            · cases h
      · cases h

/-- A turn that others follow leaves the reader ready. -/
theorem ready_next {sec : Bytes} {line : ByteBuf} {options : List OptEntry}
    (hready : t.io.Ready t.line) (h : t.done = some (r, .next sec line options))
    (hpos : 0 < r.ret) : r.io.Ready line := by
  obtain ⟨hdefined, hr, _, _, _, hline⟩ := done_spec h
  obtain ⟨_, hhands⟩ := hands hready hr
  obtain ⟨hopened, hsound, _⟩ := hhands.line hpos
  obtain ⟨f, got, hfetch, hmoves, hshows⟩ := readuntil_fetches hready.opened hready.sound hr
  obtain ⟨n, hn, _⟩ := hmoves.handed_le
  have hreads := (fetchCall_ready hready).symm.trans hfetch
  have hsource := fetch_small (hdefined.reads hready.opened hready.sound) hready.rbuf hreads
  have hsize : t.line.clean.buf.size < 2 ^ 28 := by
    rw [t.line.size_clean.1]
    exact hready.line
  have hfits : t.line.clean.Fits (f.held.take n).length := hdefined.fits f hfetch n hn
  refine ⟨hopened, hsound, hshows.rbuf.trans_lt hsource, ?_⟩
  rw [optLine_size hline, ByteBuf.size_strim, hshows.dest n hn]
  exact hfits.append_size t.env.al hsize

/-- What is trimmed is not longer than before. -/
theorem length_trimmed_le (token : CStr) (bs : Bytes) : (trimmed token bs).length ≤ bs.length :=
  ((List.rdropWhile_prefix _ _).length_le).trans (List.dropWhile_suffix _).length_le

/-- **Short lines.**  On lines of at most 85899345 bytes a turn is defined, when the allocations
succeed and the reads are at most interrupted. -/
theorem defined_of_short (hready : t.io.Ready t.line) (hgood : t.env.Good)
    (hclear : EndsClear t.remaining) (hshort : ShortLines t.remaining) : t.Defined := by
  have hfetches : ∀ f ∈ t.io.fetchCall t.fd t.call, ∃ r got, Fetches t.io t.fd f r got := by
    intro f hf
    rcases call_fetched t.io t.fd t.call with ⟨hnone, _⟩ | ⟨f', r, _, hr, _⟩
    · cases hnone.symm.trans hf
    · obtain ⟨f', got, hfetch, hmoves, _⟩ :=
        @readuntil_fetches t.io t.line.clean t.env.al t.fd t.env.cuts r hready.opened hready.sound
          hr
      obtain rfl := Option.some.inj (hfetch.symm.trans hf)
      exact ⟨r, got, hmoves⟩
  refine ⟨⟨?_, ?_, ?_⟩, ?_⟩
  · exact fun _ _ => readsFit_short rfl hready.rbuf hclear hshort
  · intro f hf _
    exact (fetch_good rfl hgood.cuts ((fetchCall_ready hready).symm.trans hf)).1
  · intro f hf n hn
    obtain ⟨r, got, hmoves⟩ := hfetches f hf
    exact fits_clean hready.line (hmoves.short hclear hshort hn)
  · intro _ piece hpiece
    have hlen : t.text.length ≤ LINE_SHORT := by
      cases hr : t.result with
      | none =>
          unfold OptTurn.text
          rw [hr]
          exact Nat.zero_le _
      | some r =>
          obtain ⟨handed, hhands⟩ := hands hready hr
          rcases hhands.text with htext | htext
          · rw [htext]
            exact hhands.short hclear hshort
          · rw [htext]
            exact Nat.zero_le _
    have htrim := length_trimmed_le lineBlank t.text
    have hpart := length_of_seenSplit (List.mem_of_mem_filter hpiece)
    unfold LINE_SHORT at hlen
    omega

/-- A call for a line returns before `read` has delivered more often than there are bytes, and the
line has a block. -/
theorem returns_of_good (hready : t.io.Ready t.line) (hgood : t.env.Good)
    (hmany : t.fd.rest.length < deliveries t.env.cuts) :
    ∃ r, t.result = some r ∧ r.buf.null = false := by
  have hcall : t.result = Io.readCommon { t.io with rtype := .readUntil, delim := newline }
      t.line.clean t.env.al t.fd t.env.cuts :=
    readuntil_open _ _ _ _ hready.opened hready.sound
  have hsome := @Io.readCommon_returns { t.io with rtype := .readUntil, delim := newline } _
    t.line.clean t.env.al t.fd t.env.cuts rfl hgood.al hgood.cuts hmany
  obtain ⟨r, hr⟩ := Option.isSome_iff_exists.mp hsome
  obtain ⟨src, hsrc⟩ := Io.readCommon_appends hr
  refine ⟨r, hcall.trans hr, ?_⟩
  rw [hsrc]
  exact t.line.clean.append_not_null src hgood.al

/-- **Long lines.**  A last line that needs more memory than 32 bits can tell overruns the buffer
that it is handed over to, if it is read at all. -/
theorem not_defined_of_long (hready : t.io.Ready t.line) (hgood : t.env.Good)
    (hmany : t.fd.rest.length < deliveries t.env.cuts) (hline : (10 : UInt8) ∉ t.remaining)
    (hroom : t.line.buf.size ≤ t.remaining.length)
    (hlong : 2 ^ 32 ≤ 25 * (t.line.buf.size + t.remaining.length + 1)) : ¬ t.Defined := by
  intro h
  obtain ⟨r, hr, _⟩ := returns_of_good hready hgood hmany
  obtain ⟨handed, hhands⟩ := hands hready hr
  have hlast : ¬ 0 < r.ret := by
    intro hpos
    obtain ⟨_, _, l, rfl, _⟩ := hhands.line hpos
    rw [hhands.parts] at hline
    simp at hline
  rw [hhands.whole (undisturbed_of_good hready hgood hr) hlast] at hroom hlong
  obtain ⟨hsize, hlen⟩ := t.line.size_clean
  have hgrows := (hhands.fits h.call).2.2 (by rw [hsize, hlen]; omega)
  rw [hsize] at hgrows
  exact absurd hgrows (Nat.not_lt.mpr hlong)

end OptTurn

end Spe
