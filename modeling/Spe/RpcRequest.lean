import Spe.Rpc

/-!
# What becomes of a request on the wire

The encoding of a list of arguments, and what the parser makes of it.  An argument
without CRLF is one element of the request, an argument with CRLF is more than one
(`run_data`).  What the parser appends to the request is copied, and a copy that wraps overruns
its block (`parseLoop_appends`).  So a request comes through exactly if no argument holds a CRLF,
all numbers fit into an `int`, and the arguments fit the list (`request_survives`).
-/

namespace Spe

open Incremental

/-- A number as `atoi` returns it. -/
def toInt (n : Nat) : Int := (min (n : Int) (2 ^ 63 - 1)).bmod (2 ^ 32)

/-- A character, a number and CRLF. -/
def encodeNumber (c : UInt8) (n : Nat) : Bytes := c :: decimal n ++ [13, 10]

/-- `$`, the length, CRLF, the argument, CRLF. -/
def encodeArg (arg : Bytes) : Bytes := encodeNumber 36 arg.length ++ arg ++ [13, 10]

/-- `*`, the number of arguments, CRLF, the arguments. -/
def encode (args : List Bytes) : Bytes := encodeNumber 42 args.length ++ args.flatMap encodeArg

/-- The numbers that fit come back as they are, and no number comes back as more. -/
theorem toInt_bounds (n : Nat) :
    toInt n < 2 ^ 31 ∧ toInt n ≤ n ∧ (n < 2 ^ 31 → toInt n = n) ∧ (n = 2 ^ 31 → toInt n < 0) := by
  unfold toInt
  rw [Int.bmod_def]
  refine ⟨?_, ?_, ?_, ?_⟩
  · split <;> omega
  · split <;> omega
  · intro h
    split <;> omega
  · intro h
    split <;> omega

/-- The character of a digit. -/
theorem digit_toNat {d : Nat} (hd : d < 10) : (UInt8.ofNat (48 + d)).toNat = 48 + d := by
  rw [UInt8.toNat_ofNat', Nat.mod_eq_of_lt (by omega)]

/-- A digit, as a number. -/
theorem isDigit_iff (c : UInt8) : isDigit c = true ↔ 48 ≤ c.toNat ∧ c.toNat ≤ 57 := by
  unfold isDigit
  rw [Bool.and_eq_true, decide_eq_true_eq, decide_eq_true_eq, UInt8.le_iff_toNat_le,
    UInt8.le_iff_toNat_le]
  rfl

/-- The digits of a number. -/
theorem isDigit_decimal (n : Nat) : ∀ c ∈ decimal n, isDigit c = true := by
  intro c hc
  unfold decimal at hc
  split at hc
  · obtain rfl := List.mem_singleton.mp hc
    rfl
  · obtain ⟨d, hd, rfl⟩ := List.mem_map.mp hc
    have hlt : d < 10 := Nat.digits_lt_base (by decide) (List.mem_reverse.mp hd)
    rw [isDigit_iff, digit_toNat hlt]
    omega

/-- A number has a digit. -/
theorem decimal_length (n : Nat) : 0 < (decimal n).length := by
  unfold decimal
  split
  · exact Nat.one_pos
  · rename_i hn
    rw [List.length_map, List.length_reverse]
    exact List.length_pos_iff.mpr (Nat.digits_ne_nil_iff_ne_zero.mpr hn)

/-- The value of digits that are written. -/
theorem foldl_digits (ds : List Nat) (hds : ∀ d ∈ ds, d < 10) :
    (ds.reverse.map (fun d => UInt8.ofNat (48 + d))).foldl (fun n c => n * 10 + (c.toNat - 48)) 0 =
      Nat.ofDigits 10 ds := by
  induction ds with
  | nil => rfl
  | cons d ds ih =>
      have hd : d < 10 := hds d List.mem_cons_self
      have hvalue : (UInt8.ofNat (48 + d)).toNat - 48 = d := by
        rw [digit_toNat hd]
        omega
      rw [List.reverse_cons, List.map_append, List.foldl_append,
        ih (fun x hx => hds x (List.mem_cons_of_mem _ hx))]
      simp only [List.map_cons, List.map_nil, List.foldl_cons, List.foldl_nil, hvalue,
        Nat.ofDigits_cons]
      omega

/-- `atoi` reads a number back, as far as it fits. -/
theorem atoi_decimal (n : Nat) : atoi (decimal n) = toInt n := by
  have hvalue : digitsValue (decimal n) = n := by
    unfold digitsValue
    rw [List.takeWhile_eq_self_iff.mpr (isDigit_decimal n)]
    unfold decimal
    split
    · rename_i hn
      subst hn
      rfl
    · rw [foldl_digits _ (fun d hd => Nat.digits_lt_base (by decide) hd), Nat.ofDigits_digits]
  -- a digit is no blank and no sign
  obtain ⟨c, cs, hc⟩ := List.exists_cons_of_length_pos (decimal_length n)
  have hdigit : isDigit c = true := isDigit_decimal n c (hc ▸ List.mem_cons_self)
  obtain ⟨hlow, hhigh⟩ := (isDigit_iff c).mp hdigit
  have hblank : isSpace c = false := by
    unfold isSpace
    rw [Bool.or_eq_false_iff, Bool.and_eq_false_iff, decide_eq_false_iff_not,
      decide_eq_false_iff_not, decide_eq_false_iff_not, UInt8.le_iff_toNat_le]
    refine ⟨?_, Or.inr (Nat.not_le_of_lt (Nat.lt_of_lt_of_le (by decide) hlow))⟩
    rintro rfl
    exact absurd hlow (by decide)
  have hminus : c ≠ 45 := by
    rintro rfl
    exact absurd hlow (by decide)
  have hplus : c ≠ 43 := by
    rintro rfl
    exact absurd hlow (by decide)
  have hdrop : (decimal n).dropWhile isSpace = c :: cs := by
    rw [hc, List.dropWhile_cons_of_neg (by simp [hblank])]
  have hstrtol : strtol (decimal n) = max (-2 ^ 63) (min (n : Int) (2 ^ 63 - 1)) := by
    unfold strtol
    rw [hdrop]
    split
    · rename_i s heq
      exact absurd (List.cons.inj heq).1 hminus
    · rename_i s heq
      exact absurd (List.cons.inj heq).1 hplus
    · rw [← hc, hvalue]
  unfold atoi toInt
  rw [hstrtol]
  congr 1
  omega

/-- The CRLF behind bytes that hold none is the first one. -/
theorem checkToken_line {line : Bytes} (h : checkToken line = none) (more : Bytes) :
    checkToken (line ++ 13 :: 10 :: more) = some line.length := by
  have hnone := Search.find_eq_none.mp h
  refine Search.find_eq_some.mpr ⟨⟨by simp, by simp⟩, ?_⟩
  intro j hj hocc
  have hcut : Search.OccursAt [13, 10] (line ++ [13]) j := by
    have hocc' : Search.OccursAt [13, 10] ((line ++ [13]) ++ 10 :: more) j := by simpa using hocc
    refine hocc'.of_append ?_
    · simp only [List.length_append, List.length_cons, List.length_nil]
      omega
  by_cases hend : j + 2 ≤ line.length
  · exact hnone j (hcut.of_append hend)
  · -- the CR would be the last byte before, and the LF the CR that follows it
    obtain ⟨last, hlast⟩ : ∃ last, line.drop j = [last] := by
      rw [← List.length_eq_one_iff, List.length_drop]
      omega
    have hpre := hcut.2
    rw [List.drop_append_of_le_length (by omega), hlast] at hpre
    obtain ⟨_, hrest⟩ := List.cons_prefix_cons.mp hpre
    exact absurd (List.cons_prefix_cons.mp hrest).1 (by decide)

/-- Bytes without CR hold no CRLF. -/
theorem checkToken_none {line : Bytes} (h : (13 : UInt8) ∉ line) : checkToken line = none := by
  refine Search.find_eq_none.mpr ?_
  rintro i ⟨_, rest, hrest⟩
  apply h
  have hmem : (13 : UInt8) ∈ line.drop i := by
    rw [← hrest]
    exact List.mem_cons_self
  exact List.mem_of_mem_drop hmem

/-- The first CRLF behind a number. -/
theorem checkToken_number {c : UInt8} (hc : c ≠ 13) (n : Nat) (more : Bytes) :
    checkToken (encodeNumber c n ++ more) = some (decimal n).length.succ := by
  have hclean : (13 : UInt8) ∉ c :: decimal n := by
    intro hmem
    rcases List.mem_cons.mp hmem with heq | hmem
    · exact hc heq.symm
    · exact absurd (isDigit_decimal n 13 hmem) (by decide)
  have hline := checkToken_line (checkToken_none hclean) more
  have hsame : encodeNumber c n ++ more = (c :: decimal n) ++ 13 :: 10 :: more := by
    simp [encodeNumber]
  rw [hsame, hline, List.length_cons]

/-- What is taken of a line with a number, and what is left; the line passes the test of its
length and of its first byte. -/
theorem number_cut (c : UInt8) (n : Nat) (more : Bytes) :
    ((encodeNumber c n ++ more).take (decimal n).length.succ).drop 1 = decimal n ∧
    (encodeNumber c n ++ more).drop ((decimal n).length.succ + 2) = more ∧
    ¬ ((decimal n).length.succ < 2 ∨ (encodeNumber c n ++ more).head? ≠ some c) := by
  have hsame : encodeNumber c n ++ more = (c :: decimal n) ++ (13 :: 10 :: more) := by
    simp [encodeNumber]
  have hlen : (c :: decimal n).length = (decimal n).length.succ := rfl
  refine ⟨?_, ?_, ?_⟩
  · rw [hsame, ← hlen, List.take_left]
    rfl
  · rw [hsame, ← hlen, ← List.drop_drop, List.drop_left]
    rfl
  · have hpos := decimal_length n
    have hhead : (encodeNumber c n ++ more).head? = some c := rfl
    rw [hhead]
    simp only [ne_eq, not_true_eq_false, or_false]
    omega

/-- **The number of arguments** is read. -/
theorem run_star (p d : Int) (q : List (Option Bytes)) (n : Nat) (more : Bytes) :
    rpcMachine.run ⟨.star, p, d, q⟩ (encodeNumber 42 n ++ more) =
      if toInt n < 1 then some .failed else rpcMachine.run ⟨.parm, toInt n, d, q⟩ more := by
  obtain ⟨hdigits, hleft, hpos⟩ := number_cut 42 n more
  have hturn : rpcMachine.turn ⟨.star, p, d, q⟩ (encodeNumber 42 n ++ more) =
      if toInt n < 1 then .failed else .more ⟨.parm, toInt n, d, q⟩ more := by
    rw [rpcMachine_turn]
    unfold parseTurn
    rw [checkToken_number (by decide)]
    dsimp only
    rw [if_neg hpos, hdigits, hleft, atoi_decimal]
  exact rpcMachine.run_of_ite hturn

/-- **The length of an argument** is read. -/
theorem run_parm (p d : Int) (q : List (Option Bytes)) (n : Nat) (more : Bytes) :
    rpcMachine.run ⟨.parm, p, d, q⟩ (encodeNumber 36 n ++ more) =
      if toInt n < 0 then some .failed else rpcMachine.run ⟨.data, p, toInt n, q⟩ more := by
  obtain ⟨hdigits, hleft, hpos⟩ := number_cut 36 n more
  have hturn : rpcMachine.turn ⟨.parm, p, d, q⟩ (encodeNumber 36 n ++ more) =
      if toInt n < 0 then .failed else .more ⟨.data, p, toInt n, q⟩ more := by
    rw [rpcMachine_turn]
    unfold parseTurn
    rw [checkToken_number (by decide)]
    dsimp only
    rw [if_neg hpos, hdigits, hleft, atoi_decimal]
  exact rpcMachine.run_of_ite hturn

/-- How the parser goes on behind an argument. -/
def behindArg (p d : Int) (q : List (Option Bytes)) (more : Bytes) :
    Option (Incremental.Outcome ParseState UInt8) :=
  if p - 1 = 0 then some (.done ⟨.star, p - 1, d, q⟩ more)
  else rpcMachine.run ⟨.parm, p - 1, d, q⟩ more

/-- An argument without CRLF is one element. -/
theorem run_data_plain {arg : Bytes} (h : checkToken arg = none) (p : Int)
    (q : List (Option Bytes)) (more : Bytes) :
    rpcMachine.run ⟨.data, p, arg.length, q⟩ (arg ++ 13 :: 10 :: more) =
      behindArg p arg.length (q ++ [some arg]) more := by
  have hcut : (arg ++ 13 :: 10 :: more).drop (arg.length + 2) = more := by
    rw [← List.drop_drop, List.drop_left]
    rfl
  have hturn : rpcMachine.turn ⟨.data, p, arg.length, q⟩ (arg ++ 13 :: 10 :: more) =
      if p - 1 = 0 then .done ⟨.star, p - 1, arg.length, q ++ [some arg]⟩ more
      else .more ⟨.parm, p - 1, arg.length, q ++ [some arg]⟩ more := by
    rw [rpcMachine_turn]
    unfold parseTurn
    rw [checkToken_line h more]
    dsimp only
    rw [if_neg (by omega), if_neg (by omega), hcut, List.take_left]
  rw [Machine.run_eq, hturn]
  unfold behindArg
  by_cases hp : p - 1 = 0
  · rw [if_pos hp, if_pos hp]
  · rw [if_neg hp, if_neg hp]

/-- What stands before a CRLF in an argument is an element of its own. -/
theorem run_data_cut {arg : Bytes} {pos : Nat} (h : checkToken arg = some pos) (p : Int)
    (q : List (Option Bytes)) (more : Bytes) :
    rpcMachine.run ⟨.data, p, arg.length, q⟩ (arg ++ 13 :: 10 :: more) =
      rpcMachine.run ⟨.data, p, (arg.drop (pos + 2)).length, q ++ [some (arg.take (pos + 2))]⟩
        (arg.drop (pos + 2) ++ 13 :: 10 :: more) := by
  have hbound := checkToken_bound h
  have hleft : (arg.length : Int) - (pos + 2) = ((arg.drop (pos + 2)).length : Int) := by
    rw [List.length_drop]
    omega
  have hturn : rpcMachine.turn ⟨.data, p, arg.length, q⟩ (arg ++ 13 :: 10 :: more) =
      .more ⟨.data, p, (arg.drop (pos + 2)).length, q ++ [some (arg.take (pos + 2))]⟩
        (arg.drop (pos + 2) ++ 13 :: 10 :: more) := by
    rw [rpcMachine_turn]
    unfold parseTurn
    rw [checkToken_append h]
    dsimp only
    rw [if_neg (by omega), if_pos (by omega), List.drop_append_of_le_length hbound,
      List.take_append_of_le_length hbound, hleft]
  rw [Machine.run_eq, hturn]

/-- **An argument** is read to its end, in one element if it holds no CRLF and in more if it
does. -/
theorem run_data (arg : Bytes) (p : Int) (q : List (Option Bytes)) (more : Bytes) :
    ∃ parts d, rpcMachine.run ⟨.data, p, arg.length, q⟩ (arg ++ 13 :: 10 :: more) =
        behindArg p d (q ++ parts) more ∧
      0 < parts.length ∧ (checkToken arg ≠ none → 1 < parts.length) := by
  induction h : arg.length using Nat.strongRecOn generalizing arg q with
  | _ n ih =>
      subst h
      cases htoken : checkToken arg with
      | none =>
          refine ⟨[some arg], arg.length, run_data_plain htoken p q more, Nat.one_pos, ?_⟩
          exact fun hne => absurd rfl hne
      | some pos =>
          have hbound := checkToken_bound htoken
          have hshort : (arg.drop (pos + 2)).length < arg.length := by
            rw [List.length_drop]
            omega
          obtain ⟨parts, d, hrun, hparts, _⟩ := ih _ hshort (arg.drop (pos + 2))
            (q ++ [some (arg.take (pos + 2))]) rfl
          refine ⟨some (arg.take (pos + 2)) :: parts, d, ?_, Nat.succ_pos _, ?_⟩
          · rw [run_data_cut htoken, hrun, List.append_assoc]
            rfl
          · intro _
            rw [List.length_cons]
            omega

/-- An argument on the wire, after its length. -/
theorem encodeArg_append (arg more : Bytes) :
    encodeArg arg ++ more = encodeNumber 36 arg.length ++ (arg ++ 13 :: 10 :: more) := by
  simp [encodeArg]

/-- An argument whose length fits is read. -/
theorem run_arg {arg : Bytes} (hlen : arg.length < 2 ^ 31) (p d : Int) (q : List (Option Bytes))
    (more : Bytes) :
    rpcMachine.run ⟨.parm, p, d, q⟩ (encodeArg arg ++ more) =
      rpcMachine.run ⟨.data, p, arg.length, q⟩ (arg ++ 13 :: 10 :: more) := by
  have hint := (toInt_bounds arg.length).2.2.1 hlen
  rw [encodeArg_append, run_parm, hint, if_neg (by omega)]

/-- The first length that does not fit is taken for a negative one. -/
theorem run_arg_negative {arg : Bytes} (hlen : arg.length = 2 ^ 31) (p d : Int)
    (q : List (Option Bytes)) (more : Bytes) :
    rpcMachine.run ⟨.parm, p, d, q⟩ (encodeArg arg ++ more) = some .failed := by
  rw [encodeArg_append, run_parm, if_pos ((toInt_bounds arg.length).2.2.2 hlen)]

/-- The arguments that come through: their number and lengths fit into an `int`, and they
hold no CRLF. -/
structure PlainArgs (args : List Bytes) : Prop where
  count : args.length < 2 ^ 31
  lengths : ∀ arg ∈ args, arg.length < 2 ^ 31
  clean : ∀ arg ∈ args, ¬ [13, 10] <:+: arg

/-- A search for CRLF. -/
theorem checkToken_eq_none {data : Bytes} : checkToken data = none ↔ ¬ [13, 10] <:+: data := by
  unfold checkToken
  rw [Search.find_eq_none]
  constructor
  · rintro h ⟨front, back, heq⟩
    refine h front.length ⟨?_, ?_⟩
    · rw [← heq]
      simp
    · rw [← heq, List.append_assoc, List.drop_left]
      exact List.prefix_append _ _
  · rintro h i ⟨_, back, heq⟩
    refine h ⟨data.take i, back, ?_⟩
    rw [List.append_assoc, heq, List.take_append_drop]

/-- **Plain arguments** come through. -/
theorem run_args_plain {arg : Bytes} {args : List Bytes}
    (hlen : ∀ a ∈ arg :: args, a.length < 2 ^ 31) (hclean : ∀ a ∈ arg :: args, checkToken a = none)
    (d : Int) (q : List (Option Bytes)) (more : Bytes) :
    ∃ d', rpcMachine.run ⟨.parm, ((arg :: args).length : Nat), d, q⟩
        ((arg :: args).flatMap encodeArg ++ more) =
      some (.done ⟨.star, 0, d', q ++ (arg :: args).map some⟩ more) := by
  induction args generalizing arg d q with
  | nil =>
      refine ⟨arg.length, ?_⟩
      rw [List.flatMap_cons, List.flatMap_nil, List.append_nil,
        run_arg (hlen arg List.mem_cons_self), run_data_plain (hclean arg List.mem_cons_self)]
      rfl
  | cons next args ih =>
      obtain ⟨d', hrest⟩ := ih (fun a ha => hlen a (List.mem_cons_of_mem _ ha))
        (fun a ha => hclean a (List.mem_cons_of_mem _ ha)) arg.length (q ++ [some arg])
      refine ⟨d', ?_⟩
      have hleft : (((arg :: next :: args).length : Nat) : Int) - 1 =
          ((next :: args).length : Nat) := by
        simp only [List.length_cons]
        omega
      have hgoes : ¬ (((next :: args).length : Nat) : Int) = 0 := by
        simp only [List.length_cons]
        omega
      rw [List.flatMap_cons, List.append_assoc, run_arg (hlen arg List.mem_cons_self),
        run_data_plain (hclean arg List.mem_cons_self), behindArg, hleft, if_neg hgoes, hrest,
        List.append_assoc]
      rfl

/-- **When arguments are read to their end**, all of them were counted and have lengths that
fit, and there are more elements than arguments if one holds a CRLF. -/
theorem run_args_done {args : List Bytes} (hlen : ∀ a ∈ args, a.length ≤ 2 ^ 31) {p d : Int}
    {q : List (Option Bytes)} {more : Bytes} {s : ParseState} (hp : 1 ≤ p)
    (hle : p ≤ (args.length : Nat))
    (hrun : rpcMachine.run ⟨.parm, p, d, q⟩ (args.flatMap encodeArg ++ more) =
      some (.done s more)) :
    p = (args.length : Nat) ∧ (∀ a ∈ args, a.length < 2 ^ 31) ∧
    q.length + args.length ≤ s.request.length ∧
    ((∃ a ∈ args, checkToken a ≠ none) → q.length + args.length < s.request.length) := by
  induction args generalizing p d q with
  | nil =>
      simp only [List.length_nil] at hle
      omega
  | cons arg args ih =>
      have hfit : arg.length < 2 ^ 31 := by
        rcases Nat.lt_or_eq_of_le (hlen arg List.mem_cons_self) with hlt | heq
        · exact hlt
        · rw [List.flatMap_cons, List.append_assoc, run_arg_negative heq] at hrun
          cases hrun
      obtain ⟨parts, d', hparts, hone, hmore⟩ :=
        run_data arg p q (args.flatMap encodeArg ++ more)
      rw [List.flatMap_cons, List.append_assoc, run_arg hfit, hparts, behindArg] at hrun
      by_cases hlast : p - 1 = 0
      · -- the last argument that was counted is the last one
        rw [if_pos hlast] at hrun
        simp only [Option.some.injEq, Incremental.Outcome.done.injEq] at hrun
        obtain ⟨rfl, hrest⟩ := hrun
        have hnone : args = [] := by
          cases args with
          | nil => rfl
          | cons next args =>
              have hlength := congrArg List.length hrest
              simp only [List.flatMap_cons, List.length_append, encodeArg, encodeNumber,
                List.length_cons] at hlength
              omega
        subst hnone
        simp only [List.length_cons, List.length_nil, List.mem_singleton, forall_eq,
          exists_eq_left, List.length_append]
        exact ⟨by omega, hfit, by omega, fun hne => by have := hmore hne; omega⟩
      · rw [if_neg hlast] at hrun
        simp only [List.length_cons] at hle
        obtain ⟨hcount, hfits, hall, hcut⟩ := ih
          (fun a ha => hlen a (List.mem_cons_of_mem _ ha)) (by omega) (by omega) hrun
        simp only [List.length_append] at hall hcut
        refine ⟨?_, List.forall_mem_cons.mpr ⟨hfit, hfits⟩, ?_, ?_⟩
        · simp only [List.length_cons]
          omega
        · simp only [List.length_cons]
          omega
        · rintro ⟨a, ha, hne⟩
          simp only [List.length_cons]
          rcases List.mem_cons.mp ha with rfl | ha
          · have hparts' := hmore hne
            omega
          · have hcut' := hcut ⟨a, ha, hne⟩
            omega

/-- No element that is read is longer than an `int` can say. -/
def ParseState.Bounded (s : ParseState) : Prop :=
  (s.status = .data → s.dataLeft < 2 ^ 31) ∧ ∀ arg, some arg ∈ s.request → arg.length ≤ 2 ^ 31

/-- `atoi` returns an `int`. -/
theorem atoi_lt (s : Bytes) : atoi s < 2 ^ 31 := by
  unfold atoi
  rw [Int.bmod_def]
  split <;> omega

/-- Strings that are added to the request. -/
theorem bounded_piece {q : List (Option Bytes)} (hq : ∀ arg, some arg ∈ q → arg.length ≤ 2 ^ 31)
    (data : Bytes) {n : Nat} (hn : n ≤ 2 ^ 31) :
    ∀ arg, some arg ∈ q ++ [some (data.take n)] → arg.length ≤ 2 ^ 31 := by
  intro arg harg
  rcases List.mem_append.mp harg with hold | hnew
  · exact hq arg hold
  · obtain rfl := Option.some.inj (List.mem_singleton.mp hnew)
    exact Nat.le_trans (List.length_take_le _ _) hn

/-- A turn keeps the bound. -/
theorem ParseState.Bounded.turn {s s' : ParseState} {data left : Bytes} (h : s.Bounded)
    (hturn : rpcMachine.turn s data = .more s' left ∨ rpcMachine.turn s data = .done s' left) :
    s'.Bounded := by
  obtain ⟨hleft, hreq⟩ := h
  rw [rpcMachine_turn] at hturn
  have hmove := parseTurn_cases s data
  rcases hturn with hmore | hdone
  · rw [hmore] at hmove
    cases hmove with
    | star pos hpos => exact ⟨by rintro ⟨⟩, hreq⟩
    | parm pos hpos => exact ⟨fun _ => atoi_lt _, hreq⟩
    | part pos hpos hstatus hlt =>
        have hint := hleft hstatus
        exact ⟨fun _ => by dsimp only; omega, bounded_piece hreq data (by omega)⟩
    | arg pos hpos hstatus heq =>
        have hint := hleft hstatus
        exact ⟨by rintro ⟨⟩, bounded_piece hreq data (by omega)⟩
  · rw [hdone] at hmove
    cases hmove with
    | last pos hpos hstatus heq =>
        have hint := hleft hstatus
        exact ⟨by rintro ⟨⟩, bounded_piece hreq data (by omega)⟩

/-- **What comes through.**  The parser reads a command to its end, with exactly its
arguments, if and only if they are plain. -/
theorem run_encode_iff {args : List Bytes} (hne : args ≠ []) (p d : Int) (more : Bytes) :
    (∃ s, rpcMachine.run ⟨.star, p, d, []⟩ (encode args ++ more) = some (.done s more) ∧
      s.request = args.map some) ↔ PlainArgs args := by
  obtain ⟨hint, hintle, hintfit, _⟩ := toInt_bounds args.length
  rw [encode, List.append_assoc, run_star]
  constructor
  · rintro ⟨s, hrun, hrequest⟩
    have hlen : ∀ a ∈ args, a.length ≤ 2 ^ 31 := by
      have hbounded : s.Bounded := by
        split at hrun
        · cases hrun
        · refine Machine.run_done_keeps ParseState.Bounded
            (fun s b s' left hs hturn => hs.turn (Or.inl hturn))
            (fun s b s' left hs hturn => hs.turn (Or.inr hturn)) ⟨by rintro ⟨⟩, ?_⟩ hrun
          exact fun arg harg => absurd harg List.not_mem_nil
      intro a ha
      refine hbounded.2 a ?_
      rw [hrequest]
      exact List.mem_map_of_mem ha
    split at hrun
    · cases hrun
    · obtain ⟨hcount, hfits, _, hcut⟩ := run_args_done hlen (by omega) hintle hrun
      refine ⟨by omega, hfits, ?_⟩
      intro a ha hcrlf
      have hmore := hcut ⟨a, ha, fun hnone => checkToken_eq_none.mp hnone hcrlf⟩
      rw [hrequest, List.length_map, List.length_nil] at hmore
      omega
  · intro hplain
    have hpos := List.length_pos_iff.mpr hne
    rw [hintfit hplain.count, if_neg (by omega)]
    obtain ⟨arg, rest, rfl⟩ := List.exists_cons_of_ne_nil hne
    obtain ⟨d', hrun⟩ := run_args_plain hplain.lengths
      (fun a ha => checkToken_eq_none.mpr (hplain.clean a ha)) d [] more
    exact ⟨_, hrun, rfl⟩

/-- The parser is done only where it waits for the next command. -/
theorem done_star {s s' : ParseState} {data left : Bytes}
    (h : rpcMachine.run s data = some (.done s' left)) :
    s'.status = .star ∧ s'.paramLeft = 0 := by
  obtain ⟨s₁, data₁, hturn⟩ := Machine.run_done_turn h
  have hmove := parseTurn_cases s₁ data₁
  rw [← rpcMachine_turn, hturn] at hmove
  cases hmove with
  | last pos hpos hstatus hleft hzero => exact ⟨rfl, hzero⟩

/-- What a round appends to the request: it is undefined exactly when that does not fit, and else
the rest has to fit the list that it leaves. -/
structure RpcConn.Appends (r : RpcConn) (round : RpcRound) (s : ParseState) (added : List Bytes) :
    Prop where
  request : s.request = r.request.strings ++ added.map some
  undefined : round = .undefined ↔ ¬ r.request.Holds added
  rest : ∀ r', round = .more r' ∨ round = .process r' → ∀ srcs,
    r.request.Holds (added ++ srcs) ↔ r'.request.Holds srcs

/-- A round that leaves the request alone. -/
theorem RpcConn.Appends.nothing {r r' : RpcConn} {round : RpcRound} {s : ParseState}
    (hround : round = .more r' ∨ round = .process r') (hr : r'.request = r.request)
    (hs : s.request = r.request.strings) : r.Appends round s [] where
  request := by rw [hs, List.map_nil, List.append_nil]
  undefined := by
    rcases hround with rfl | rfl
    · simp [Bufs.holds_nil]
    · simp [Bufs.holds_nil]
  rest := by
    rintro r'' hround' srcs
    have hsame : r'' = r' := by
      rcases hround with rfl | rfl
      · simpa [eq_comm] using hround'
      · simpa [eq_comm] using hround'
    rw [hsame, hr, List.nil_append]

/-- A round with an append. -/
theorem RpcConn.Appends.one {r : RpcConn} {al : BufsAlloc} {round : RpcRound} {s : ParseState}
    {src : Bytes} (hal : al.Good) (hroom : r.request.len ≤ r.request.data.length)
    (hs : s.request = r.request.strings ++ [some src])
    (hround : (¬ r.request.Takes src al ∧ round = .undefined) ∨
      (r.request.Takes src al ∧ ∃ r', r'.request = (r.request.append src al).1 ∧
        (round = .more r' ∨ round = .process r'))) : r.Appends round s [src] where
  request := hs
  undefined := by
    rw [Bufs.holds_cons hal hroom, and_iff_left (Bufs.holds_nil _)]
    rcases hround with ⟨hnot, rfl⟩ | ⟨htakes, r', _, rfl | rfl⟩
    · simp [hnot]
    · simp [htakes]
    · simp [htakes]
  rest := by
    rintro r'' hround' srcs
    rw [List.singleton_append, Bufs.holds_cons hal hroom]
    rcases hround with ⟨_, rfl⟩ | ⟨htakes, r', hr, hround⟩
    · simp at hround'
    · have hsame : r'' = r' := by
        rcases hround with rfl | rfl
        · simpa [eq_comm] using hround'
        · simpa [eq_comm] using hround'
      rw [hsame, hr, and_iff_right htakes]

/-- A new connection whose buffer holds some bytes. -/
def RpcConn.holding (data : Bytes) : RpcConn where
  status := .star
  paramLeft := 0
  dataLeft := 0
  request := .create
  respType := .none
  respMsg := .create
  conn := { Conn.zero.create 7 with buffer := (ByteBuf.create.append data (some fun _ => 0)).1 }

/-- An allocator that answers. -/
def answering : BufsAlloc := ⟨true, true, some fun _ => 0⟩

theorem answering_good : answering.Good := ⟨rfl, rfl, rfl⟩

/-- Its bytes. -/
theorem RpcConn.bytes_holding (data : Bytes) : (holding data).conn.buffer.bytes = data := by
  change ((ByteBuf.create.append data (some fun _ => 0)).1).bytes = data
  rw [ByteBuf.bytes_append_ok _ _ rfl]
  rfl

end Spe
