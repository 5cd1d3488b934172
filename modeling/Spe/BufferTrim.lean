import Spe.BufferText

/-!
# What a trim leaves (`spe_buf_strim`)

`spe_buf_lstrim` and `spe_buf_rstrim` ask `strchr` whether a byte is in the token, and `strchr`
finds the NUL that ends the token, too.  So `spe_buf_strim` strips the bytes of the token from
both ends of a content exactly when no NUL comes to light there (`NulInside`); a NUL that does is
stripped, and what is behind it.
-/

namespace Spe

/-- The byte occurs in the token. -/
def CStr.has (token : CStr) (c : UInt8) : Bool := token.1.contains c

/-- Neither the first nor the last byte that is not in the token is a NUL. -/
def NulInside (token : CStr) (bs : Bytes) : Prop :=
  (bs.find? fun c => !token.has c) ≠ some 0 ∧
  (bs.reverse.find? fun c => !token.has c) ≠ some 0

instance (token : CStr) (bs : Bytes) : Decidable (NulInside token bs) :=
  inferInstanceAs (Decidable (_ ∧ _))

/-- `strchr` finds the bytes of the token and NUL. -/
theorem strchr_eq (token : CStr) (c : UInt8) : strchr token c = (c == 0 || token.has c) := rfl

/-- What is trimmed is stripped of what `strchr` finds. -/
theorem trimmed_eq_strip (token : CStr) (bs : Bytes) :
    trimmed token bs = Strip.strip (strchr token) bs := rfl

/-- **Trimming.**  What `spe_buf_strim` leaves is the content stripped of the bytes in the token
exactly when no NUL comes to light at its ends. -/
theorem trimmed_iff (token : CStr) (bs : Bytes) :
    trimmed token bs = Strip.strip token.has bs ↔ NulInside token bs := by
  have hcore := Strip.strip_spec token.has bs
  rw [trimmed_eq_strip]
  unfold NulInside
  rw [← hcore.head?_eq, ← hcore.getLast?_eq]
  constructor
  · intro hsame
    have htrimmed := Strip.strip_spec (strchr token) bs
    rw [hsame] at htrimmed
    constructor
    · intro hnul
      cases htrimmed.first 0 hnul
    · intro hnul
      cases htrimmed.last 0 hnul
  · rintro ⟨hfirst, hlast⟩
    have houtside : ∀ c, c ≠ 0 → token.has c = false → strchr token c = false := by
      intro c hne hout
      rw [strchr_eq, hout, Bool.or_false, beq_eq_false_iff_ne]
      exact hne
    refine (Strip.stripped_iff.mp ⟨?_, ?_, ?_⟩).symm
    · obtain ⟨left, right, hparts, hleft, hright⟩ := hcore.parts
      refine ⟨left, right, hparts, ?_, ?_⟩
      · intro c hc
        rw [strchr_eq, hleft c hc, Bool.or_true]
      · intro c hc
        rw [strchr_eq, hright c hc, Bool.or_true]
    · intro c hc
      exact houtside c (fun hzero => hfirst (hzero ▸ hc)) (hcore.first c hc)
    · intro c hc
      exact houtside c (fun hzero => hlast (hzero ▸ hc)) (hcore.last c hc)

/-- **The trimming law.**  For every content and every token: what `spe_buf_strim` removes from the
ends is in the token, the ends of what it leaves are not, what is left stands in the content as
one piece, and trimming again changes nothing, exactly when no NUL comes to light at the ends. -/
theorem strim_strips (b : ByteBuf) (token : CStr) :
    (Strip.Stripped token.has b.bytes (b.strim token).bytes ∧
      ((b.strim token).strim token).bytes = (b.strim token).bytes) ↔
    NulInside token b.bytes := by
  rw [ByteBuf.bytes_strim, ByteBuf.bytes_strim, Strip.stripped_iff, trimmed_iff]
  refine and_iff_left ?_
  rw [ByteBuf.bytes_strim, trimmed_eq_strip, trimmed_eq_strip, Strip.strip_idempotent]

/-- A NUL before "a" is trimmed with the blank in front of it. -/
theorem strim_strips_fails :
    ¬ ∀ (b : ByteBuf) (token : CStr),
      Strip.Stripped token.has b.bytes (b.strim token).bytes := by
  intro hall
  have hblank : (0 : UInt8) ∉ [32] := by decide
  have hstripped := hall (.holding [32, 0, 97]) ⟨[32], hblank⟩
  rw [ByteBuf.bytes_strim, ByteBuf.bytes_holding, Strip.stripped_iff, trimmed_iff] at hstripped
  exact hstripped.1 rfl

end Spe
