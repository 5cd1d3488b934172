import Spe.OptMeaning

/-!
# Which options are found as they are written

`spe_opt_t` has arrays of 16, 16 and 128 bytes, and `strncpy` cuts what does not fit: a longer
name is stored under another one, a longer value loses its end, and the file is accepted all the
same.  It also ends at a NUL.  So what `spe_opt_string` finds after an accepted file is what the
file says exactly when the names of its pairs fit, and the values that count (`OptionsFit`).
-/

namespace Spe

/-- What an accepted file promises.  A string that is found is the value of a line with exactly
this key under a header with exactly this name, and the first such line is found; no name has been
stored in a changed form. -/
structure OptionsExact (content : Bytes) (options : List OptEntry) : Prop where
  sound : ∀ (sec : Option CStr) (key : CStr) (default : Option Bytes),
    optString options sec (some key) default ≠ default →
    ∃ e ∈ entriesIn content, e.sec = (sec.getD global).1 ∧ e.key = key.1 ∧
      optString options sec (some key) default = some e.val
  complete : ∀ (sec : Option CStr) (key : CStr) (default : Option Bytes) (e : Entry),
    lookup (entriesIn content) (sec.getD global).1 key.1 = some e →
    optString options sec (some key) default = some e.val
  kept : ∀ e ∈ entriesIn content, ∃ o ∈ options, cstr o.sec = e.sec ∧ cstr o.key = e.key

/-- A string fits an array of `n` bytes: it is a C string, and there is room for its NUL. -/
def FitsArray (n : Nat) (bs : Bytes) : Prop := (0 : UInt8) ∉ bs ∧ bs.length < n

instance (n : Nat) (bs : Bytes) : Decidable (FitsArray n bs) :=
  inferInstanceAs (Decidable (_ ∧ _))

/-- The names of the pairs of a file fit their arrays, and so do the values of those that are the
first under their names. -/
structure OptionsFit (content : Bytes) : Prop where
  names : ∀ e ∈ entriesIn content, FitsArray SEC_MAXLEN e.sec ∧ FitsArray KEY_MAXLEN e.key
  values : ∀ sec key e, lookup (entriesIn content) sec key = some e → FitsArray VAL_MAXLEN e.val

/-- Names that fit are found as they are. -/
theorem lookup_cut {entries : List Entry} (sec key : Bytes)
    (h : ∀ e ∈ entries, FitsArray SEC_MAXLEN e.sec ∧ FitsArray KEY_MAXLEN e.key) :
    lookup (entries.map Entry.cut) sec key = (lookup entries sec key).map Entry.cut := by
  induction entries with
  | nil => rfl
  | cons e entries ih =>
      obtain ⟨hsec, hkey⟩ := h e List.mem_cons_self
      have hs : e.cut.sec = e.sec := cutTo_of_fits hsec.1 hsec.2
      have hk : e.cut.key = e.key := cutTo_of_fits hkey.1 hkey.2
      have hrest := ih fun e he => h e (List.mem_cons_of_mem _ he)
      have hnames : (sec = e.cut.sec ∧ key = e.cut.key) ↔ sec = e.sec ∧ key = e.key := by
        rw [hs, hk]
      unfold lookup at hrest ⊢
      rw [List.map_cons, List.find?_cons, List.find?_cons, decide_eq_decide.mpr hnames, hrest]
      cases decide (sec = e.sec ∧ key = e.key) <;> rfl

section Views

variable {content : Bytes} {options : List OptEntry}

/-- Options that hold the entries of a file as their arrays do. -/
theorem optString_cut (hview : options.map OptEntry.view = (entriesIn content).map Entry.cut)
    (sec : Option CStr) (key : CStr) (default : Option Bytes) :
    optString options sec (some key) default =
      (lookup ((entriesIn content).map Entry.cut) (sec.getD global).1 key.1).elim default
        fun entry => some entry.val := by
  rw [optString_eq, hview]

/-- Names that are kept fit: what is stored is short and has no NUL. -/
theorem OptionsExact.names (h : OptionsExact content options)
    (hview : options.map OptEntry.view = (entriesIn content).map Entry.cut) :
    ∀ e ∈ entriesIn content, FitsArray SEC_MAXLEN e.sec ∧ FitsArray KEY_MAXLEN e.key := by
  intro e he
  obtain ⟨o, ho, hsec, hkey⟩ := h.kept e he
  have hmem : o.view ∈ (entriesIn content).map Entry.cut := hview ▸ List.mem_map_of_mem ho
  obtain ⟨other, _, hcut⟩ := List.mem_map.mp hmem
  have hs : cutTo SEC_MAXLEN other.sec = cstr o.sec := congrArg Entry.sec hcut
  have hk : cutTo KEY_MAXLEN other.key = cstr o.key := congrArg Entry.key hcut
  rw [← hsec, ← hkey, ← hs, ← hk]
  exact ⟨⟨cutTo_clean _ _, cutTo_length (by decide) _⟩,
    ⟨cutTo_clean _ _, cutTo_length (by decide) _⟩⟩

/-- Entries that fit are found as they are. -/
theorem OptionsFit.finds (h : OptionsFit content)
    (hview : options.map OptEntry.view = (entriesIn content).map Entry.cut)
    (sec : Option CStr) (key : CStr) (default : Option Bytes) :
    optString options sec (some key) default =
      (lookup (entriesIn content) (sec.getD global).1 key.1).elim default
        fun entry => some entry.val := by
  rw [optString_cut hview, lookup_cut _ _ h.names]
  cases hfound : lookup (entriesIn content) (sec.getD global).1 key.1 with
  | none => rfl
  | some e =>
      obtain ⟨hclean, hfits⟩ := h.values _ _ e hfound
      exact congrArg some (cutTo_of_fits hclean hfits)

/-- Entries that fit are kept, and nothing else is found. -/
theorem OptionsFit.exact (h : OptionsFit content)
    (hview : options.map OptEntry.view = (entriesIn content).map Entry.cut) :
    OptionsExact content options := by
  have hfinds := h.finds hview
  refine ⟨?_, ?_, ?_⟩
  · intro sec key default hother
    rw [hfinds] at hother ⊢
    cases hfound : lookup (entriesIn content) (sec.getD global).1 key.1 with
    | none =>
        rw [hfound] at hother
        exact absurd rfl hother
    | some e =>
        obtain ⟨hmem, hsec, hkey⟩ := lookup_names hfound
        exact ⟨e, hmem, hsec.symm, hkey.symm, rfl⟩
  · intro sec key default e hfound
    rw [hfinds, hfound]
    rfl
  · intro e he
    obtain ⟨hsec, hkey⟩ := h.names e he
    have hmem : e.cut ∈ options.map OptEntry.view := hview ▸ List.mem_map_of_mem he
    obtain ⟨o, ho, hcut⟩ := List.mem_map.mp hmem
    refine ⟨o, ho, ?_, ?_⟩
    · exact (congrArg Entry.sec hcut).trans (cutTo_of_fits hsec.1 hsec.2)
    · exact (congrArg Entry.key hcut).trans (cutTo_of_fits hkey.1 hkey.2)

end Views

end Spe
