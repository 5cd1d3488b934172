import Mathlib.Data.List.Basic
import Mathlib.Data.List.Range

/-!
# A ledger for a queue with cancellation

A queue is used through three acts: an element is inserted at the back, the
front element is executed, or a queued element is removed from wherever it
is.  The ledger gives every insertion a ticket, its number, and keeps track of
where the ticket went.  `replay` follows a list of acts and refuses those that
a first-in-first-out queue would not show: a second insertion of a queued
element, the execution of an element that is not at the front, the removal of
an element that is not queued.

For every accepted list of acts (`Valid`):

* each ticket is in exactly one place: executed, removed or still pending;
* each ticket carries the element that was inserted under its number;
* tickets are executed in the order of insertion, and every executed ticket is
  older than every pending one.
-/

namespace Ledger

/-- What is seen of a queue. -/
inductive Act (α : Type)
  | insert (a : α)
  | execute (a : α)
  | remove (a : α)
  deriving DecidableEq

variable {α : Type}

/-- The inserted elements in order. -/
def insertions : List (Act α) → List α
  | [] => []
  | .insert a :: acts => a :: insertions acts
  | _ :: acts => insertions acts

theorem insertions_append (acts more : List (Act α)) :
    insertions (acts ++ more) = insertions acts ++ insertions more := by
  induction acts with
  | nil => rfl
  | cons act acts ih => cases act <;> simp [insertions, ih]

/-- Where the tickets are. -/
structure Book (α : Type) where
  issued : Nat
  pending : List (Nat × α)
  executed : List (Nat × α)
  removed : List (Nat × α)

/-- The book before any act. -/
def Book.empty : Book α := ⟨0, [], [], []⟩

/-- All tickets. -/
def Book.tickets (l : Book α) : List (Nat × α) := l.executed ++ l.removed ++ l.pending

/-- What holds of the book of every accepted list of acts. -/
structure Valid (acts : List (Act α)) (l : Book α) : Prop where
  issued : l.issued = (insertions acts).length
  places : (l.tickets.map Prod.fst).Perm (List.range l.issued)
  carries : ∀ p ∈ l.tickets, (insertions acts)[p.1]? = some p.2
  inOrder : (l.executed.map Prod.fst).Pairwise (· < ·)
  queued : (l.pending.map Prod.fst).Pairwise (· < ·)
  older : ∀ p ∈ l.executed, ∀ q ∈ l.pending, p.1 < q.1

/-- A ticket's number was issued. -/
theorem Valid.lt_issued {acts : List (Act α)} {l : Book α} (h : Valid acts l)
    {p : Nat × α} (hp : p ∈ l.tickets) : p.1 < l.issued := by
  have hmem := h.places.mem_iff.mp (List.mem_map_of_mem (f := Prod.fst) hp)
  exact List.mem_range.mp hmem

/-- The empty book is valid. -/
theorem valid_empty : Valid ([] : List (Act α)) Book.empty := by
  constructor <;> simp [Book.empty, Book.tickets, insertions]

/-- The tickets are the insertions under their numbers. -/
theorem Valid.mem_tickets_iff {acts : List (Act α)} {l : Book α} (h : Valid acts l)
    (n : Nat) (a : α) : (n, a) ∈ l.tickets ↔ (insertions acts)[n]? = some a := by
  constructor
  · intro hmem
    exact h.carries (n, a) hmem
  · intro hget
    have hlt : n < l.issued := by
      rw [h.issued]
      exact (List.getElem?_eq_some_iff.mp hget).1
    have hplace : n ∈ l.tickets.map Prod.fst :=
      h.places.mem_iff.mpr (List.mem_range.mpr hlt)
    obtain ⟨p, hp, rfl⟩ := List.mem_map.mp hplace
    have hcarried := h.carries p hp
    obtain rfl := Option.some.inj (hcarried.symm.trans hget)
    exact hp

/-- No ticket is in two places. -/
theorem Valid.onePlace {acts : List (Act α)} {l : Book α} (h : Valid acts l) :
    (l.tickets.map Prod.fst).Nodup :=
  h.places.nodup_iff.mpr List.nodup_range

/-- An insertion issues the next number. -/
theorem Valid.insert {acts : List (Act α)} {l : Book α} (h : Valid acts l) (a : α) :
    Valid (acts ++ [.insert a])
      { l with issued := l.issued + 1, pending := l.pending ++ [(l.issued, a)] } := by
  have hins : insertions (acts ++ [.insert a]) = insertions acts ++ [a] := by
    rw [insertions_append]
    rfl
  refine ⟨by rw [hins, List.length_append, h.issued]; rfl, ?_, ?_, h.inOrder, ?_, ?_⟩
  · have hperm := h.places.append_right [l.issued]
    rw [← List.range_succ] at hperm
    simpa [Book.tickets] using hperm
  · intro p hp
    rw [hins]
    have hp' : p ∈ l.tickets ∨ p = (l.issued, a) := by
      simpa [Book.tickets, or_assoc] using hp
    rcases hp' with hp' | rfl
    · have hlt := h.lt_issued hp'
      rw [List.getElem?_append_left (by rw [← h.issued]; exact hlt)]
      exact h.carries p hp'
    · rw [h.issued]
      simp
  · rw [List.map_append, List.pairwise_append]
    refine ⟨h.queued, by simp, ?_⟩
    intro n hn k hk
    obtain ⟨p, hp, rfl⟩ := List.mem_map.mp hn
    obtain rfl : k = l.issued := by simpa using hk
    exact h.lt_issued (List.mem_append.mpr (Or.inr hp))
  · intro p hp q hq
    rcases List.mem_append.mp hq with hq | hq
    · exact h.older p hp q hq
    · obtain rfl := List.mem_singleton.mp hq
      apply h.lt_issued
      simp [Book.tickets, hp]

/-- An execution takes the first pending ticket. -/
theorem Valid.execute {acts : List (Act α)} {l : Book α} (h : Valid acts l) (a : α)
    {p : Nat × α} {rest : List (Nat × α)} (hpending : l.pending = p :: rest) :
    Valid (acts ++ [.execute a]) { l with pending := rest, executed := l.executed ++ [p] } := by
  have hins : insertions (acts ++ [.execute a]) = insertions acts := by
    rw [insertions_append]
    simp [insertions]
  have hmoved : (l.executed ++ [p] ++ l.removed ++ rest).Perm l.tickets := by
    rw [Book.tickets, hpending]
    simp only [List.append_assoc, List.singleton_append]
    apply List.Perm.append_left _
    exact (@List.perm_middle _ _ l.removed _).symm
  have hqueued := h.queued
  rw [hpending, List.map_cons, List.pairwise_cons] at hqueued
  refine ⟨by rw [hins]; exact h.issued, (hmoved.map Prod.fst).trans h.places, ?_, ?_,
    hqueued.2, ?_⟩
  · intro q hq
    rw [hins]
    exact h.carries q (hmoved.mem_iff.mp hq)
  · rw [List.map_append, List.pairwise_append]
    refine ⟨h.inOrder, by simp, ?_⟩
    intro n hn k hk
    obtain ⟨q, hq, rfl⟩ := List.mem_map.mp hn
    obtain rfl : k = p.1 := by simpa using hk
    exact h.older q hq p (by simp [hpending])
  · intro q hq r hr
    rcases List.mem_append.mp hq with hq | hq
    · exact h.older q hq r (by simp [hpending, hr])
    · obtain rfl := List.mem_singleton.mp hq
      exact hqueued.1 r.1 (List.mem_map_of_mem hr)

variable [DecidableEq α]

/-- Take the first ticket of an element out of a list of tickets. -/
def takeOut (a : α) : List (Nat × α) → Option (Nat × List (Nat × α))
  | [] => none
  | p :: rest =>
      if p.2 = a then some (p.1, rest)
      else (takeOut a rest).map (fun q => (q.1, p :: q.2))

/-- The book after one act; `none` when a first-in-first-out queue would not
show the act. -/
def Book.apply (l : Book α) : Act α → Option (Book α)
  | .insert a =>
      if a ∈ l.pending.map Prod.snd then none
      else some { l with issued := l.issued + 1, pending := l.pending ++ [(l.issued, a)] }
  | .execute a =>
      match l.pending with
      | [] => none
      | p :: rest =>
          if p.2 = a then some { l with pending := rest, executed := l.executed ++ [p] }
          else none
  | .remove a =>
      match takeOut a l.pending with
      | none => none
      | some (n, rest) => some { l with pending := rest, removed := l.removed ++ [(n, a)] }

/-- Follow a list of acts. -/
def replayFrom (l : Book α) : List (Act α) → Option (Book α)
  | [] => some l
  | act :: acts =>
      match l.apply act with
      | none => none
      | some l' => replayFrom l' acts

/-- Follow a list of acts from the empty book. -/
def replay (acts : List (Act α)) : Option (Book α) := replayFrom Book.empty acts

theorem replayFrom_append (l : Book α) (acts more : List (Act α)) :
    replayFrom l (acts ++ more) = (replayFrom l acts).bind (fun l' => replayFrom l' more) := by
  induction acts generalizing l with
  | nil => rfl
  | cons act acts ih =>
      simp only [List.cons_append, replayFrom]
      cases h : l.apply act with
      | none => rfl
      | some l' => exact ih l'

/-- One more act. -/
theorem replay_snoc {acts : List (Act α)} {l l' : Book α} {act : Act α}
    (h : replay acts = some l) (happly : l.apply act = some l') :
    replay (acts ++ [act]) = some l' := by
  have hfrom : replayFrom Book.empty acts = some l := h
  rw [replay, replayFrom_append, hfrom]
  simp [replayFrom, happly]

/-- Taking out the ticket of an element: it was there, the others stay in
order. -/
theorem takeOut_spec {a : α} {ps rest : List (Nat × α)} {n : Nat}
    (h : takeOut a ps = some (n, rest)) :
    ∃ pre post, ps = pre ++ (n, a) :: post ∧ rest = pre ++ post ∧
      ∀ p ∈ pre, p.2 ≠ a := by
  induction ps generalizing rest with
  | nil => simp [takeOut] at h
  | cons p ps ih =>
      rw [takeOut] at h
      by_cases hp : p.2 = a
      · rw [if_pos hp] at h
        simp only [Option.some.injEq, Prod.mk.injEq] at h
        obtain ⟨rfl, rfl⟩ := h
        refine ⟨[], ps, ?_, rfl, by simp⟩
        rw [← hp]
        rfl
      · rw [if_neg hp] at h
        obtain ⟨q, hq, hqeq⟩ := Option.map_eq_some_iff.mp h
        simp only [Prod.mk.injEq] at hqeq
        obtain ⟨rfl, rfl⟩ := hqeq
        obtain ⟨pre, post, hsplit, hrest, hpre⟩ := ih hq
        refine ⟨p :: pre, post, by simp [hsplit], by simp [hrest], ?_⟩
        intro q' hq'
        rcases List.mem_cons.mp hq' with rfl | hq'
        · exact hp
        · exact hpre q' hq'

/-- An element with a ticket can be taken out. -/
theorem takeOut_of_mem {a : α} {ps : List (Nat × α)} (h : a ∈ ps.map Prod.snd) :
    ∃ n rest, takeOut a ps = some (n, rest) := by
  induction ps with
  | nil => simp at h
  | cons p ps ih =>
      rw [takeOut]
      by_cases hp : p.2 = a
      · exact ⟨p.1, ps, by rw [if_pos hp]⟩
      · have hmem : a ∈ ps.map Prod.snd := by
          rcases List.mem_cons.mp h with heq | hmem
          · exact absurd heq.symm hp
          · exact hmem
        obtain ⟨n, rest, hrest⟩ := ih hmem
        exact ⟨n, p :: rest, by rw [if_neg hp, hrest]; rfl⟩

/-- A removal takes the ticket of its element, wherever it is. -/
theorem Valid.remove {acts : List (Act α)} {l : Book α} (h : Valid acts l) {a : α} {n : Nat}
    {rest : List (Nat × α)} (hout : takeOut a l.pending = some (n, rest)) :
    Valid (acts ++ [.remove a]) { l with pending := rest, removed := l.removed ++ [(n, a)] } := by
  have hins : insertions (acts ++ [.remove a]) = insertions acts := by
    rw [insertions_append]
    simp [insertions]
  obtain ⟨pre, post, hpending, rfl, _⟩ := takeOut_spec hout
  have hmoved : (l.executed ++ (l.removed ++ [(n, a)]) ++ (pre ++ post)).Perm
      l.tickets := by
    rw [Book.tickets, hpending]
    simp only [List.append_assoc, List.singleton_append]
    refine List.Perm.append_left _ (List.Perm.append_left _ ?_)
    exact (@List.perm_middle _ _ pre _).symm
  have hsub : (pre ++ post).Sublist l.pending := by
    rw [hpending]
    exact List.Sublist.append_left (List.sublist_cons_self _ _) pre
  refine ⟨by rw [hins]; exact h.issued, (hmoved.map Prod.fst).trans h.places, ?_,
    h.inOrder, h.queued.sublist (hsub.map Prod.fst), ?_⟩
  · intro q hq
    rw [hins]
    exact h.carries q (hmoved.mem_iff.mp hq)
  · intro p hp q hq
    exact h.older p hp q (hsub.subset hq)

/-- **Step lemma.**  An accepted act keeps the book valid. -/
theorem Valid.apply {acts : List (Act α)} {l l' : Book α} {act : Act α}
    (h : Valid acts l) (happly : l.apply act = some l') :
    Valid (acts ++ [act]) l' := by
  cases act with
  | insert a =>
      rw [Book.apply] at happly
      split at happly
      · cases happly
      · rw [← Option.some.inj happly]
        exact h.insert a
  | execute a =>
      rw [Book.apply] at happly
      split at happly
      · cases happly
      · rename_i p rest hpending
        split at happly
        · rw [← Option.some.inj happly]
          exact h.execute a hpending
        · cases happly
  | remove a =>
      rw [Book.apply] at happly
      split at happly
      · cases happly
      · rename_i n rest hout
        rw [← Option.some.inj happly]
        exact h.remove hout

/-- **Run lemma.**  The book of every accepted list of acts is valid. -/
theorem valid_of_replay {acts : List (Act α)} {l : Book α} (h : replay acts = some l) :
    Valid acts l := by
  have hfrom : ∀ (acts done : List (Act α)) (l₀ : Book α), Valid done l₀ →
      replayFrom l₀ acts = some l → Valid (done ++ acts) l := by
    intro acts
    induction acts with
    | nil =>
        intro done l₀ hvalid hreplay
        obtain rfl := Option.some.inj hreplay
        simpa using hvalid
    | cons act acts ih =>
        intro done l₀ hvalid hreplay
        rw [replayFrom] at hreplay
        split at hreplay
        · simp at hreplay
        · rename_i l₁ happly
          have hnext := ih (done ++ [act]) l₁ (hvalid.apply happly) hreplay
          simpa using hnext
  exact hfrom acts [] Book.empty valid_empty h

/-- The book accepts the insertion of an element that is not queued. -/
theorem Book.apply_insert {l : Book α} {q : List α} (hq : l.pending.map Prod.snd = q)
    {a : α} (hnot : a ∉ q) :
    ∃ l', l.apply (.insert a) = some l' ∧ l'.pending.map Prod.snd = q ++ [a] := by
  rw [Book.apply, hq, if_neg hnot]
  exact ⟨_, rfl, by simp [hq]⟩

/-- The book accepts the execution of the element at the front. -/
theorem Book.apply_execute {l : Book α} {q : List α} {a : α}
    (hq : l.pending.map Prod.snd = a :: q) :
    ∃ l', l.apply (.execute a) = some l' ∧ l'.pending.map Prod.snd = q := by
  obtain ⟨p, rest, hpending, hp, hrest⟩ := List.map_eq_cons_iff.mp hq
  rw [Book.apply, hpending]
  dsimp only
  rw [if_pos hp]
  exact ⟨_, rfl, hrest⟩

/-- The book accepts the removal of a queued element. -/
theorem Book.apply_remove {l : Book α} {q : List α} (hq : l.pending.map Prod.snd = q)
    {a : α} (hmem : a ∈ q) :
    ∃ l', l.apply (.remove a) = some l' ∧ l'.pending.map Prod.snd = q.erase a := by
  obtain ⟨n, rest, hout⟩ := takeOut_of_mem (hq ▸ hmem)
  rw [Book.apply, hout]
  refine ⟨_, rfl, ?_⟩
  obtain ⟨pre, post, hpending, rfl, hpre⟩ := takeOut_spec hout
  have hnot : a ∉ pre.map Prod.snd := by
    intro hin
    obtain ⟨p, hp, hpa⟩ := List.mem_map.mp hin
    exact hpre p hp hpa
  rw [← hq, hpending]
  simp [List.erase_append_right _ hnot]

end Ledger
