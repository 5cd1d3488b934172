import Mathlib.Algebra.Order.Group.Multiset
import Mathlib.Data.Multiset.UnionInter
import Mathlib.Logic.Function.Basic
import Mathlib.Tactic.Abel

/-!
# Cells of a heap

A heap maps an address to the object stored there, if there is one.  `Holds h cs` says
that the cells `cs`, pairs of an address and an object, are all in the heap and at
different addresses.  What an operation does to some cells is stated with arbitrary other
cells `F` beside them, which it leaves alone.
-/

namespace Cells

variable {κ ν : Type}

/-- The cells are in the heap, at different addresses. -/
structure Holds (h : κ → Option ν) (cs : Multiset (κ × ν)) : Prop where
  apart : (cs.map Prod.fst).Nodup
  stored : ∀ c ∈ cs, h c.1 = some c.2

variable {h : κ → Option ν} {cs ds F : Multiset (κ × ν)} {a b : κ} {v w : ν}

theorem Holds.congr (hh : Holds h cs) (heq : cs = ds) : Holds h ds := heq ▸ hh

/-- No cells. -/
theorem holds_zero : Holds h 0 :=
  ⟨Multiset.nodup_zero, fun _ hc => absurd hc (Multiset.notMem_zero _)⟩

/-- Some of the cells. -/
theorem Holds.left (hh : Holds h (cs + ds)) : Holds h cs := by
  refine ⟨?_, fun c hc => hh.stored c (Multiset.mem_add.mpr (Or.inl hc))⟩
  have hapart := hh.apart
  rw [Multiset.map_add] at hapart
  exact (Multiset.nodup_add.mp hapart).1

/-- The object of a cell is read at its address. -/
theorem Holds.read (hh : Holds h ({(a, v)} + F)) : h a = some v :=
  hh.stored (a, v) (by simp)

/-- No other cell has the address of a cell. -/
theorem Holds.not_mem (hh : Holds h ({(a, v)} + F)) : a ∉ F.map Prod.fst := by
  have hapart := hh.apart
  rw [Multiset.map_add, Multiset.map_singleton, Multiset.singleton_add,
    Multiset.nodup_cons] at hapart
  exact hapart.1

/-- Two cells have different addresses. -/
theorem Holds.ne (hh : Holds h ({(a, v)} + ({(b, w)} + F))) : a ≠ b := by
  have hnot := hh.not_mem
  rintro rfl
  simp at hnot

/-- An object at a further address joins the cells. -/
theorem Holds.join (hh : Holds h F) (hread : h a = some v) (hnot : a ∉ F.map Prod.fst) :
    Holds h ({(a, v)} + F) := by
  constructor
  · rw [Multiset.map_add, Multiset.map_singleton, Multiset.singleton_add, Multiset.nodup_cons]
    exact ⟨hnot, hh.apart⟩
  · intro c hc
    rcases Multiset.mem_add.mp hc with hc | hc
    · obtain rfl := Multiset.mem_singleton.mp hc
      exact hread
    · exact hh.stored c hc

variable [DecidableEq κ]

/-- Change the object at an address, if there is one. -/
def modify (h : κ → Option ν) (a : κ) (f : ν → ν) : Option (κ → Option ν) :=
  (h a).map fun v => Function.update h a (some (f v))

/-- **Store rule.**  A store changes one cell. -/
theorem Holds.modify (hh : Holds h ({(a, v)} + F)) (f : ν → ν) :
    ∃ h', Cells.modify h a f = some h' ∧ Holds h' ({(a, f v)} + F) := by
  refine ⟨_, by rw [Cells.modify, hh.read]; rfl, ?_⟩
  constructor
  · simpa using hh.apart
  · intro c hc
    rcases Multiset.mem_add.mp hc with hc | hc
    · obtain rfl := Multiset.mem_singleton.mp hc
      exact Function.update_self a _ h
    · have hne : c.1 ≠ a := by
        intro heq
        exact hh.not_mem (heq ▸ Multiset.mem_map_of_mem Prod.fst hc)
      show Function.update h a (some (f v)) c.1 = some c.2
      rw [Function.update_of_ne hne]
      exact hh.stored c (Multiset.mem_add.mpr (Or.inr hc))

end Cells
