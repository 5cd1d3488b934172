import Mathlib.Algebra.Ring.Nat
import Mathlib.Data.List.Nodup
import Mathlib.Data.List.Perm.Subperm

/-!
# Extents

An extent is a half-open interval of addresses.  Two extents are `Apart` when one ends
before the other starts.  The laws say what is apart from a part of an extent and from two
extents that adjoin, and how much room extents take that are pairwise apart.
-/

/-- The addresses from `start` up to `stop`. -/
structure Extent where
  start : Nat
  stop : Nat
  deriving DecidableEq

namespace Extent

/-- How many addresses there are. -/
def size (x : Extent) : Nat := x.stop - x.start

/-- One extent ends before the other starts. -/
def Apart (x y : Extent) : Prop := x.stop ≤ y.start ∨ y.stop ≤ x.start

instance (x y : Extent) : Decidable (x.Apart y) := inferInstanceAs (Decidable (_ ∨ _))

theorem Apart.symm {x y : Extent} (h : x.Apart y) : y.Apart x := Or.symm h

/-- What is apart from an extent is apart from its parts. -/
theorem Apart.part {x y z : Extent} (h : x.Apart y) (hstart : y.start ≤ z.start)
    (hstop : z.stop ≤ y.stop) : x.Apart z := by
  unfold Apart at *
  omega

/-- What is apart from two extents that adjoin is apart from them together. -/
theorem Apart.join {x : Extent} {a b c : Nat} (hne : x.start < x.stop)
    (hleft : x.Apart ⟨a, b⟩) (hright : x.Apart ⟨b, c⟩) : x.Apart ⟨a, c⟩ := by
  simp only [Apart] at *
  omega

/-- The addresses of an extent. -/
def addresses (x : Extent) : List Nat := List.range' x.start x.size

theorem mem_addresses {x : Extent} {a : Nat} : a ∈ x.addresses ↔ x.start ≤ a ∧ a < x.stop := by
  simp only [addresses, size, List.mem_range'_1]
  omega

/-- Extents that are apart share no address. -/
theorem Apart.disjoint {x y : Extent} (h : x.Apart y) :
    List.Disjoint x.addresses y.addresses := by
  intro a hx hy
  rw [mem_addresses] at hx hy
  unfold Apart at h
  omega

/-- Extents that are pairwise apart take no more room than there is. -/
theorem size_sum_le {xs : List Extent} {lo hi : Nat} (hapart : xs.Pairwise Apart)
    (hin : ∀ x ∈ xs, lo ≤ x.start ∧ x.stop ≤ hi) : (xs.map size).sum ≤ hi - lo := by
  have hnodup : (xs.flatMap addresses).Nodup := by
    rw [List.nodup_flatMap]
    exact ⟨fun _ _ => List.nodup_range', hapart.imp Apart.disjoint⟩
  have hsub : xs.flatMap addresses ⊆ List.range' lo (hi - lo) := by
    intro a ha
    obtain ⟨x, hx, hmem⟩ := List.mem_flatMap.mp ha
    have hbounds := hin x hx
    rw [mem_addresses] at hmem
    rw [List.mem_range'_1]
    omega
  have hlength := (List.subperm_of_subset hnodup hsub).length_le
  rw [List.length_flatMap, List.length_range'] at hlength
  simpa [addresses] using hlength

end Extent
