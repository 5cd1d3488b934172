import Mathlib.Data.List.Nodup
import Mathlib.Logic.Function.Basic

/-!
# Linked lists

Two ways to thread nodes through pointers.  A ring has a head that is linked like a node, and
every node points to the next and to the previous one (`Ring`).  A row of chains has heads that
only point to their first node, and a node points to the next one and back to the pointer that
points to it (`Chains`).  A pointer may be null: `none`.

`Ring.Seg` and `Chains.Seg` say that the nodes behind a place are those of a list.  Adding a node
and deleting one, which look at neighbours only, do to this list what one expects.
-/

namespace Links

variable {α : Type} [DecidableEq α]

/-- The head of a ring, or one of its nodes. -/
inductive Spot (α : Type)
  | head
  | node (a : α)
  deriving DecidableEq

/-- The node at a place. -/
def Spot.node? : Spot α → Option α
  | .head => none
  | .node a => some a

/-- The pointers of a ring. -/
structure Ring (α : Type) where
  next : Spot α → Option (Spot α)
  prev : Spot α → Option (Spot α)

namespace Ring

variable (r : Ring α)

/-- The `next` pointer of a place is written. -/
def setNext (p : Spot α) (target : Option (Spot α)) : Ring α :=
  { r with next := Function.update r.next p target }

/-- The `prev` pointer of a place is written. -/
def setPrev (p : Spot α) (target : Option (Spot α)) : Ring α :=
  { r with prev := Function.update r.prev p target }

/-- A place that is linked to itself. -/
def init (p : Spot α) : Ring α := (r.setNext p (some p)).setPrev p (some p)

/-- A place is linked between two others. -/
def insert (new prev next : Spot α) : Ring α :=
  (((r.setPrev next (some new)).setNext new (some next)).setPrev new (some prev)).setNext prev
    (some new)

/-- A place is added before the head. -/
def addTail (new : Spot α) : Option (Ring α) := (r.prev .head).map fun last => r.insert new last .head

/-- The neighbours of a place are linked to each other, and it points nowhere. -/
def cut (entry prev next : Spot α) : Ring α :=
  (((r.setPrev next (some prev)).setNext prev (some next)).setNext entry none).setPrev entry none

/-- A place is deleted. -/
def del (entry : Spot α) : Option (Ring α) :=
  match r.prev entry, r.next entry with
  | some prev, some next => some (r.cut entry prev next)
  | _, _ => none

/-- Behind a place come the nodes of the list, and then the head. -/
def Seg : Spot α → List α → Prop
  | p, [] => r.next p = some .head ∧ r.prev .head = some p
  | p, x :: l => r.next p = some (.node x) ∧ r.prev (.node x) = some p ∧ Seg (.node x) l

variable {r} {p : Spot α} {l : List α} {x : α}

omit [DecidableEq α] in
/-- The list depends on the pointers of its nodes only, and on those at its ends. -/
theorem Seg.congr {r' : Ring α} (h : r.Seg p l) (hp : r'.next p = r.next p)
    (hhead : r'.prev .head = r.prev .head)
    (hnodes : ∀ x ∈ l, r'.next (.node x) = r.next (.node x) ∧
      r'.prev (.node x) = r.prev (.node x)) : r'.Seg p l := by
  induction l generalizing p with
  | nil => exact ⟨hp.trans h.1, hhead.trans h.2⟩
  | cons x l ih =>
      obtain ⟨hnext, hprev, htail⟩ := h
      obtain ⟨⟨hx, hx'⟩, hnodes⟩ := List.forall_mem_cons.mp hnodes
      exact ⟨hp.trans hnext, hx'.trans hprev, ih htail hx hnodes⟩

omit [DecidableEq α] in
/-- The last place of a list. -/
theorem Seg.last (h : r.Seg p l) :
    ∃ last, r.prev .head = some last ∧ (last = p ∨ ∃ y ∈ l, last = .node y) := by
  induction l generalizing p with
  | nil => exact ⟨p, h.2, Or.inl rfl⟩
  | cons x l ih =>
      obtain ⟨last, hlast, hwhere⟩ := ih h.2.2
      refine ⟨last, hlast, Or.inr ?_⟩
      rcases hwhere with rfl | ⟨y, hy, rfl⟩
      · exact ⟨x, List.mem_cons_self, rfl⟩
      · exact ⟨y, List.mem_cons_of_mem x hy, rfl⟩

omit [DecidableEq α] in
/-- The neighbours of a node are places of the list. -/
theorem Seg.neighbours (h : r.Seg p l) (hx : x ∈ l) :
    ∃ before after, r.prev (.node x) = some before ∧ r.next (.node x) = some after ∧
      (before = p ∨ ∃ y ∈ l, before = .node y) ∧ (after = .head ∨ ∃ y ∈ l, after = .node y) := by
  induction l generalizing p with
  | nil => cases hx
  | cons y l ih =>
      obtain ⟨_, hprev, htail⟩ := h
      rcases List.mem_cons.mp hx with rfl | hx
      · cases l with
        | nil => exact ⟨p, .head, hprev, htail.1, Or.inl rfl, Or.inl rfl⟩
        | cons z l =>
            exact ⟨p, .node z, hprev, htail.1, Or.inl rfl,
              Or.inr ⟨z, List.mem_cons_of_mem _ List.mem_cons_self, rfl⟩⟩
      · obtain ⟨before, after, hbefore, hafter, hb, ha⟩ := ih htail hx
        refine ⟨before, after, hbefore, hafter, Or.inr ?_, ?_⟩
        · rcases hb with rfl | ⟨w, hw, rfl⟩
          · exact ⟨y, List.mem_cons_self, rfl⟩
          · exact ⟨w, List.mem_cons_of_mem y hw, rfl⟩
        · rcases ha with rfl | ⟨w, hw, rfl⟩
          · exact Or.inl rfl
          · exact Or.inr ⟨w, List.mem_cons_of_mem y hw, rfl⟩

/-- What linking a place in does to the `next` pointers. -/
theorem next_insert (new prev next q : Spot α) : (r.insert new prev next).next q =
    if q = prev then some new else if q = new then some next else r.next q := by
  simp only [insert, setNext, setPrev, Function.update_apply]

/-- What it does to the `prev` pointers. -/
theorem prev_insert (new prev next q : Spot α) : (r.insert new prev next).prev q =
    if q = new then some prev else if q = next then some new else r.prev q := by
  simp only [insert, setNext, setPrev, Function.update_apply]

/-- What deleting a place does to the `next` pointers. -/
theorem next_cut (entry prev next q : Spot α) : (r.cut entry prev next).next q =
    if q = entry then none else if q = prev then some next else r.next q := by
  simp only [cut, setNext, setPrev, Function.update_apply]

/-- What it does to the `prev` pointers. -/
theorem prev_cut (entry prev next q : Spot α) : (r.cut entry prev next).prev q =
    if q = entry then none else if q = next then some prev else r.prev q := by
  simp only [cut, setNext, setPrev, Function.update_apply]

omit [DecidableEq α] in
/-- The head and the nodes are different places. -/
theorem nodup_spots (h : l.Nodup) : (Spot.head :: l.map .node).Nodup := by
  rw [List.nodup_cons]
  refine ⟨?_, h.map fun _ _ heq => Spot.node.inj heq⟩
  rw [List.mem_map]
  rintro ⟨_, _, heq⟩
  cases heq

/-- A node is linked in before the head. -/
theorem Seg.insert (h : r.Seg p l) (hnodup : (p :: l.map .node).Nodup) (hx : x ∉ l)
    (hxp : p ≠ .node x) {last : Spot α} (hlast : r.prev .head = some last) :
    (r.insert (.node x) last .head).Seg p (l ++ [x]) := by
  induction l generalizing p with
  | nil =>
      obtain rfl : last = p := Option.some.inj (hlast.symm.trans h.2)
      refine ⟨?_, ?_, ?_, ?_⟩
      · rw [next_insert, if_pos rfl]
      · rw [prev_insert, if_pos rfl]
      · rw [next_insert, if_neg hxp.symm, if_pos rfl]
      · rw [prev_insert, if_neg (by simp), if_pos rfl]
  | cons y l ih =>
      obtain ⟨hnext, hprev, htail⟩ := h
      rw [List.map_cons, List.nodup_cons] at hnodup
      obtain ⟨hp, hnodup⟩ := hnodup
      obtain ⟨hyx, hx⟩ := not_or.mp (fun hmem => hx (List.mem_cons.mpr hmem))
      have hyx' : Spot.node y ≠ .node x := fun heq => hyx (Spot.node.inj heq).symm
      -- the last place is not the first one
      have hpl : p ≠ last := by
        obtain ⟨last', hlast', hwhere⟩ := htail.last
        obtain rfl := Option.some.inj (hlast.symm.trans hlast')
        rintro rfl
        rcases hwhere with rfl | ⟨w, hw, rfl⟩
        · exact hp List.mem_cons_self
        · exact hp (List.mem_cons_of_mem _ (List.mem_map_of_mem hw))
      refine ⟨?_, ?_, ih htail hnodup hx hyx'⟩
      · rw [next_insert, if_neg hpl, if_neg hxp, hnext]
      · rw [prev_insert, if_neg hyx', if_neg (by simp), hprev]

/-- A node is taken out. -/
theorem Seg.cut (h : r.Seg p l) (hnodup : (p :: l.map .node).Nodup) (hx : x ∈ l)
    {before after : Spot α} (hbefore : r.prev (.node x) = some before)
    (hafter : r.next (.node x) = some after) :
    (r.cut (.node x) before after).Seg p (l.erase x) := by
  induction l generalizing p with
  | nil => cases hx
  | cons y l ih =>
      obtain ⟨hnext, hprev, htail⟩ := h
      rw [List.map_cons, List.nodup_cons] at hnodup
      obtain ⟨hp, hnodup⟩ := hnodup
      have hpx : p ≠ .node x := by
        rintro rfl
        exact hp (by simpa using hx)
      by_cases hyx : y = x
      · subst hyx
        obtain rfl : before = p := Option.some.inj (hbefore.symm.trans hprev)
        rw [List.erase_cons_head]
        cases l with
        | nil =>
            obtain rfl : after = .head := Option.some.inj (hafter.symm.trans htail.1)
            refine ⟨?_, ?_⟩
            · rw [next_cut, if_neg hpx, if_pos rfl]
            · rw [prev_cut, if_neg (by simp), if_pos rfl]
        | cons z l =>
            obtain rfl : after = .node z := Option.some.inj (hafter.symm.trans htail.1)
            rw [List.map_cons, List.mem_cons, List.mem_cons] at hp
            rw [List.nodup_cons, List.map_cons, List.nodup_cons] at hnodup
            obtain ⟨hy, hz, _⟩ := hnodup
            have hzy : Spot.node z ≠ .node y := fun heq => hy (heq ▸ List.mem_cons_self)
            refine ⟨?_, ?_, htail.2.2.congr ?_ ?_ ?_⟩
            · rw [next_cut, if_neg hpx, if_pos rfl]
            · rw [prev_cut, if_neg hzy, if_pos rfl]
            · rw [next_cut, if_neg hzy, if_neg (fun heq => hp (Or.inr (Or.inl heq.symm)))]
            · rw [prev_cut, if_neg (by simp), if_neg (by simp)]
            · intro w hw
              have hw' : Spot.node w ∈ l.map Spot.node := List.mem_map_of_mem hw
              have hwy : Spot.node w ≠ .node y := fun heq => hy (heq ▸ List.mem_cons_of_mem _ hw')
              have hwp : Spot.node w ≠ before := fun heq => hp (Or.inr (Or.inr (heq ▸ hw')))
              have hwz : Spot.node w ≠ .node z := fun heq => hz (heq ▸ hw')
              rw [next_cut, if_neg hwy, if_neg hwp, prev_cut, if_neg hwy, if_neg hwz]
              exact ⟨rfl, rfl⟩
      · have hxl : x ∈ l := (List.mem_cons.mp hx).resolve_left (fun heq => hyx heq.symm)
        have hyx' : Spot.node y ≠ .node x := fun heq => hyx (Spot.node.inj heq)
        obtain ⟨before', after', hb, ha, hbwhere, hawhere⟩ := htail.neighbours hxl
        obtain rfl := Option.some.inj (hbefore.symm.trans hb)
        obtain rfl := Option.some.inj (hafter.symm.trans ha)
        rw [List.erase_cons_tail (by simpa using hyx)]
        refine ⟨?_, ?_, ih htail hnodup hxl⟩
        · have hpb : p ≠ before := by
            rintro rfl
            rcases hbwhere with rfl | ⟨w, hw, rfl⟩
            · exact hp List.mem_cons_self
            · exact hp (List.mem_cons_of_mem _ (List.mem_map_of_mem hw))
          rw [next_cut, if_neg hpx, if_neg hpb, hnext]
        · have hya : Spot.node y ≠ after := by
            rintro rfl
            rcases hawhere with heq | ⟨w, hw, heq⟩
            · cases heq
            · exact (List.nodup_cons.mp hnodup).1 (heq ▸ List.mem_map_of_mem hw)
          rw [prev_cut, if_neg hyx', if_neg hya, hprev]

/-- **Adding a node at the end.** -/
theorem Seg.addTail (h : r.Seg .head l) (hnodup : l.Nodup) (hx : x ∉ l) :
    ∃ r', r.addTail (.node x) = some r' ∧ r'.Seg .head (l ++ [x]) := by
  obtain ⟨last, hlast, _⟩ := h.last
  refine ⟨r.insert (.node x) last .head, ?_, h.insert (nodup_spots hnodup) hx (by simp) hlast⟩
  unfold Ring.addTail
  rw [hlast]
  rfl

/-- **Deleting a node.** -/
theorem Seg.del (h : r.Seg .head l) (hnodup : l.Nodup) (hx : x ∈ l) :
    ∃ r', r.del (.node x) = some r' ∧ r'.Seg .head (l.erase x) := by
  obtain ⟨before, after, hbefore, hafter, _, _⟩ := h.neighbours hx
  refine ⟨r.cut (.node x) before after, ?_, h.cut (nodup_spots hnodup) hx hbefore hafter⟩
  unfold Ring.del
  rw [hbefore, hafter]

omit [DecidableEq α] in
/-- What follows a place of a ring. -/
theorem Seg.next_node (h : r.Seg p l) :
    (r.next p).map Spot.node? = some l[0]? ∧
    ∀ k a, l[k]? = some a → (r.next (.node a)).map Spot.node? = some l[k + 1]? := by
  induction l generalizing p with
  | nil =>
      refine ⟨?_, fun k a hk => by simp at hk⟩
      rw [h.1]
      rfl
  | cons x l ih =>
      obtain ⟨hfirst, hlater⟩ := ih h.2.2
      refine ⟨by rw [h.1]; rfl, ?_⟩
      intro k a hk
      cases k with
      | zero =>
          obtain rfl : x = a := by simpa using hk
          simpa using hfirst
      | succ k => exact hlater k a (by simpa using hk)

/-- A place is linked to itself: the list behind the head stays as it is, when it is not there. -/
theorem Seg.init (h : r.Seg .head l) (hx : x ∉ l) : (r.init (.node x)).Seg .head l := by
  have hne : ∀ q, q ≠ Spot.node x →
      (r.init (.node x)).next q = r.next q ∧ (r.init (.node x)).prev q = r.prev q := by
    intro q hq
    exact ⟨Function.update_of_ne hq _ _, Function.update_of_ne hq _ _⟩
  refine h.congr (hne _ (by simp)).1 (hne _ (by simp)).2 ?_
  intro y hy
  exact hne _ (fun heq => hx (Spot.node.inj heq ▸ hy))

/-- The empty ring. -/
theorem seg_init (r : Ring α) : (r.init .head).Seg .head [] := by
  simp [Seg, Ring.init, setNext, setPrev]

end Ring

/-- The place of a pointer to a node: the head of a chain, or the `next` pointer of a node. -/
inductive Cell (α : Type)
  | first (i : Nat)
  | next (a : α)
  deriving DecidableEq

/-- The pointers of a row of chains. -/
structure Chains (α : Type) where
  first : Nat → Option α
  next : α → Option α
  pprev : α → Option (Cell α)

namespace Chains

variable (c : Chains α)

/-- The pointer at a place. -/
def load : Cell α → Option α
  | .first i => c.first i
  | .next a => c.next a

/-- The pointer at a place is written. -/
def store : Cell α → Option α → Chains α
  | .first i, target => { c with first := Function.update c.first i target }
  | .next a, target => { c with next := Function.update c.next a target }

/-- The pointer back is written. -/
def setPprev (a : α) (target : Option (Cell α)) : Chains α :=
  { c with pprev := Function.update c.pprev a target }

/-- A node that is in no chain. -/
def init (a : α) : Chains α := (c.store (.next a) none).setPprev a none

/-- A node is added at the head of a chain. -/
def addHead (a : α) (i : Nat) : Chains α :=
  let first := c.first i
  let c := c.store (.next a) first
  let c := match first with
    | some b => c.setPprev b (some (.next a))
    | none => c
  (c.store (.first i) (some a)).setPprev a (some (.first i))

/-- The pointer to a node is led past it, and the node points nowhere. -/
def cut (a : α) (place : Cell α) (next : Option α) : Chains α :=
  let c := c.store place next
  let c := match next with
    | some b => c.setPprev b (some place)
    | none => c
  (c.store (.next a) none).setPprev a none

/-- A node is deleted. -/
def del (a : α) : Option (Chains α) := (c.pprev a).map fun place => c.cut a place (c.next a)

/-- Behind the pointer at a place come the nodes of the list. -/
def Seg : Cell α → List α → Prop
  | p, [] => c.load p = none
  | p, x :: l => c.load p = some x ∧ c.pprev x = some p ∧ Seg (.next x) l

/-- Behind each head come the nodes of its list. -/
def Holds (lists : Nat → List α) : Prop := ∀ i, c.Seg (.first i) (lists i)

/-- No node is twice in a list, or in two lists. -/
structure Apart (lists : Nat → List α) : Prop where
  nodup : ∀ i, (lists i).Nodup
  one : ∀ i j x, x ∈ lists i → x ∈ lists j → i = j

variable {c} {p : Cell α} {l : List α} {x : α} {lists : Nat → List α}

/-- The pointer at a place, after one is written. -/
theorem load_store (p q : Cell α) (target : Option α) :
    (c.store p target).load q = if q = p then target else c.load q := by
  cases p <;> cases q <;> simp [store, load, Function.update_apply]

/-- Writing a pointer changes no pointer back. -/
@[simp] theorem pprev_store (p : Cell α) (target : Option α) :
    (c.store p target).pprev = c.pprev := by
  cases p <;> rfl

/-- Writing a pointer back changes no other pointer. -/
@[simp] theorem load_setPprev (a : α) (target : Option (Cell α)) (q : Cell α) :
    (c.setPprev a target).load q = c.load q := by
  cases q <;> rfl

/-- What adding a node does to the pointers. -/
theorem load_addHead (a : α) (i : Nat) (q : Cell α) : (c.addHead a i).load q =
    if q = .first i then some a else if q = .next a then c.first i else c.load q := by
  unfold addHead
  cases c.first i <;> simp [load_store]

/-- What it does to the pointers back. -/
theorem pprev_addHead (a : α) (i : Nat) (b : α) : (c.addHead a i).pprev b =
    if b = a then some (.first i)
    else if c.first i = some b then some (.next a) else c.pprev b := by
  unfold addHead
  cases c.first i with
  | none => simp [setPprev, Function.update_apply]
  | some f => simp [setPprev, Function.update_apply, eq_comm]

/-- What deleting a node does to the pointers. -/
theorem load_cut (a : α) (place : Cell α) (next : Option α) (q : Cell α) :
    (c.cut a place next).load q =
      if q = .next a then none else if q = place then next else c.load q := by
  unfold cut
  cases next <;> simp [load_store]

/-- What it does to the pointers back. -/
theorem pprev_cut (a : α) (place : Cell α) (next : Option α) (b : α) :
    (c.cut a place next).pprev b =
      if b = a then none else if next = some b then some place else c.pprev b := by
  unfold cut
  cases next with
  | none => simp [setPprev, Function.update_apply]
  | some f => simp [setPprev, Function.update_apply, eq_comm]

omit [DecidableEq α] in
/-- The list depends on the pointer to it and on those of its nodes only. -/
theorem Seg.congr {c' : Chains α} (h : c.Seg p l) (hp : c'.load p = c.load p)
    (hnodes : ∀ x ∈ l, c'.load (.next x) = c.load (.next x) ∧ c'.pprev x = c.pprev x) :
    c'.Seg p l := by
  induction l generalizing p with
  | nil => exact hp.trans h
  | cons x l ih =>
      obtain ⟨hload, hback, htail⟩ := h
      obtain ⟨⟨hx, hx'⟩, hnodes⟩ := List.forall_mem_cons.mp hnodes
      exact ⟨hp.trans hload, hx'.trans hback, ih htail hx hnodes⟩

omit [DecidableEq α] in
/-- What a node points to, and back to, is in the list. -/
theorem Seg.neighbours (h : c.Seg p l) (hx : x ∈ l) :
    ∃ place, c.pprev x = some place ∧ (place = p ∨ ∃ y ∈ l, place = .next y) ∧
      ∀ y, c.next x = some y → y ∈ l := by
  induction l generalizing p with
  | nil => cases hx
  | cons y l ih =>
      obtain ⟨_, hback, htail⟩ := h
      rcases List.mem_cons.mp hx with rfl | hx
      · refine ⟨p, hback, Or.inl rfl, ?_⟩
        intro y hy
        cases l with
        | nil => cases htail.symm.trans hy
        | cons z l =>
            obtain rfl := Option.some.inj (htail.1.symm.trans hy)
            exact List.mem_cons_of_mem _ List.mem_cons_self
      · obtain ⟨place, hplace, hwhere, hnext⟩ := ih htail hx
        refine ⟨place, hplace, Or.inr ?_, fun w hw => List.mem_cons_of_mem y (hnext w hw)⟩
        rcases hwhere with rfl | ⟨w, hw, rfl⟩
        · exact ⟨y, List.mem_cons_self, rfl⟩
        · exact ⟨w, List.mem_cons_of_mem y hw, rfl⟩

/-- A node is taken out. -/
theorem Seg.cut (h : c.Seg p l) (hnodup : l.Nodup) (hp : ∀ y ∈ l, p ≠ .next y) (hx : x ∈ l)
    {place : Cell α} (hplace : c.pprev x = some place) :
    (c.cut x place (c.next x)).Seg p (l.erase x) := by
  induction l generalizing p with
  | nil => cases hx
  | cons y l ih =>
      obtain ⟨hload, hback, htail⟩ := h
      obtain ⟨hy, hnodup⟩ := List.nodup_cons.mp hnodup
      have hpx : p ≠ .next x := hp x hx
      by_cases hyx : y = x
      · subst hyx
        obtain rfl : place = p := Option.some.inj (hplace.symm.trans hback)
        rw [List.erase_cons_head]
        cases l with
        | nil =>
            have hnil : c.next y = none := htail
            change (c.cut y place (c.next y)).load place = none
            rw [load_cut, if_neg hpx, if_pos rfl, hnil]
        | cons z l =>
            have hz : c.next y = some z := htail.1
            have hzy : z ≠ y := fun heq => hy (heq ▸ List.mem_cons_self)
            refine ⟨?_, ?_, htail.2.2.congr ?_ ?_⟩
            · rw [load_cut, if_neg hpx, if_pos rfl, hz]
            · rw [pprev_cut, if_neg hzy, if_pos hz]
            · have hzp : Cell.next z ≠ place :=
                (hp z (List.mem_cons_of_mem _ List.mem_cons_self)).symm
              rw [load_cut, if_neg (fun heq => hzy (Cell.next.inj heq)), if_neg hzp]
            · intro w hw
              have hwy : w ≠ y := fun heq => hy (heq ▸ List.mem_cons_of_mem _ hw)
              have hwz : w ≠ z := fun heq => (List.nodup_cons.mp hnodup).1 (heq ▸ hw)
              have hwp : Cell.next w ≠ place :=
                (hp w (List.mem_cons_of_mem _ (List.mem_cons_of_mem _ hw))).symm
              have hnot : ¬ c.next y = some w := by
                rw [hz]
                exact fun heq => hwz (Option.some.inj heq).symm
              rw [load_cut, if_neg (fun heq => hwy (Cell.next.inj heq)), if_neg hwp, pprev_cut,
                if_neg hwy, if_neg hnot]
              exact ⟨rfl, rfl⟩
      · have hxl : x ∈ l := (List.mem_cons.mp hx).resolve_left (fun heq => hyx heq.symm)
        obtain ⟨place', hplace', hwhere, hnext⟩ := htail.neighbours hxl
        obtain rfl := Option.some.inj (hplace.symm.trans hplace')
        rw [List.erase_cons_tail (by simpa using hyx)]
        refine ⟨?_, ?_, ih htail hnodup ?_ hxl⟩
        · have hpp : p ≠ place := by
            rintro rfl
            rcases hwhere with heq | ⟨w, hw, heq⟩
            · exact hp y List.mem_cons_self heq
            · exact hp w (List.mem_cons_of_mem _ hw) heq
          rw [load_cut, if_neg hpx, if_neg hpp, hload]
        · rw [pprev_cut, if_neg hyx, if_neg (fun heq => hy (hnext y heq)), hback]
        · intro w hw heq
          exact hy (Cell.next.inj heq ▸ hw)

/-- Another list does not notice. -/
theorem Seg.cut_other {q : Cell α} {l' : List α} (h : c.Seg p l) (h' : c.Seg q l') (hx : x ∈ l)
    (hpq : q ≠ p) (hq : ∀ y ∈ l, q ≠ .next y) (hp : ∀ y ∈ l', p ≠ .next y)
    (hapart : ∀ y ∈ l, y ∉ l') {place : Cell α} (hplace : c.pprev x = some place) :
    (c.cut x place (c.next x)).Seg q l' := by
  obtain ⟨place', hplace', hwhere, hnext⟩ := h.neighbours hx
  obtain rfl := Option.some.inj (hplace.symm.trans hplace')
  refine h'.congr ?_ ?_
  · have hqp : q ≠ place := by
      rcases hwhere with rfl | ⟨w, hw, rfl⟩
      · exact hpq
      · exact hq w hw
    rw [load_cut, if_neg (hq x hx), if_neg hqp]
  · intro y hy
    have hyx : y ≠ x := fun heq => hapart x hx (heq ▸ hy)
    have hyp : Cell.next y ≠ place := by
      rcases hwhere with rfl | ⟨w, hw, rfl⟩
      · exact (hp y hy).symm
      · exact fun heq => hapart w hw (Cell.next.inj heq ▸ hy)
    have hyn : ¬ c.next x = some y := fun heq => hapart y (hnext y heq) hy
    rw [load_cut, if_neg (fun heq => hyx (Cell.next.inj heq)), if_neg hyp, pprev_cut, if_neg hyx,
      if_neg hyn]
    exact ⟨rfl, rfl⟩

omit [DecidableEq α] in
/-- The first node. -/
theorem Seg.load_eq (h : c.Seg p l) : c.load p = l.head? := by
  cases l with
  | nil => exact h
  | cons x l => exact h.1

/-- A node that is in no chain is made new. -/
theorem Holds.init (h : c.Holds lists) (hnew : ∀ j, x ∉ lists j) : (c.init x).Holds lists := by
  intro i
  have hload : ∀ q, q ≠ Cell.next x → (c.init x).load q = c.load q := by
    intro q hq
    unfold Chains.init
    rw [load_setPprev, load_store, if_neg hq]
  refine (h i).congr (hload _ (by simp)) ?_
  intro y hy
  have hyx : y ≠ x := fun heq => hnew i (heq ▸ hy)
  exact ⟨hload _ (fun heq => hyx (Cell.next.inj heq)), Function.update_of_ne hyx _ _⟩

/-- **Deleting a node.** -/
theorem Holds.del (h : c.Holds lists) (hapart : Apart lists) {i : Nat} (hx : x ∈ lists i) :
    ∃ c', c.del x = some c' ∧ c'.Holds fun j => (lists j).erase x := by
  obtain ⟨place, hplace, _⟩ := (h i).neighbours hx
  refine ⟨c.cut x place (c.next x), ?_, ?_⟩
  · unfold Chains.del
    rw [hplace]
    rfl
  · intro j
    have hnot : ∀ k, ∀ y ∈ lists k, Cell.first j ≠ .next y := by
      rintro k y _ ⟨⟩
    by_cases hj : j = i
    · subst hj
      exact (h j).cut (hapart.nodup j) (hnot j) hx hplace
    · have hxj : x ∉ lists j := fun hmem => hj (hapart.one j i x hmem hx)
      dsimp only
      rw [List.erase_of_not_mem hxj]
      refine (h i).cut_other (h j) hx ?_ (hnot i) ?_ ?_ hplace
      · exact fun heq => hj (Cell.first.inj heq)
      · rintro y _ ⟨⟩
      · exact fun y hy hy' => hj (hapart.one j i y hy' hy)

/-- **Adding a node at a head.** -/
theorem Holds.addHead (h : c.Holds lists) (hnew : ∀ j, x ∉ lists j) (hapart : Apart lists)
    (i : Nat) : (c.addHead x i).Holds (Function.update lists i (x :: lists i)) := by
  have hfirst : ∀ j y, c.first j = some y → y ∈ lists j := by
    intro j y hy
    have hseg := h j
    cases hl : lists j with
    | nil =>
        rw [hl] at hseg
        cases hseg.symm.trans hy
    | cons z l =>
        rw [hl] at hseg
        obtain rfl := Option.some.inj (hseg.1.symm.trans hy)
        exact List.mem_cons_self
  intro j
  by_cases hj : j = i
  · subst hj
    rw [Function.update_self]
    refine ⟨?_, ?_, ?_⟩
    · rw [load_addHead, if_pos rfl]
    · rw [pprev_addHead, if_pos rfl]
    · have hseg := h j
      have hnew := hnew j
      have hnodup := hapart.nodup j
      cases hl : lists j with
      | nil =>
          rw [hl] at hseg
          have hnone : c.first j = none := hseg
          change (c.addHead x j).load (.next x) = none
          rw [load_addHead, if_neg (by simp), if_pos rfl, hnone]
      | cons y l =>
          rw [hl] at hseg hnew hnodup
          obtain ⟨hload, _, htail⟩ := hseg
          have hload : c.first j = some y := hload
          obtain ⟨hxy, hxl⟩ := not_or.mp (fun hmem => hnew (List.mem_cons.mpr hmem))
          refine ⟨?_, ?_, htail.congr ?_ ?_⟩
          · rw [load_addHead, if_neg (by simp), if_pos rfl, hload]
          · rw [pprev_addHead, if_neg (Ne.symm hxy), if_pos hload]
          · rw [load_addHead, if_neg (by simp), if_neg (fun heq => hxy (Cell.next.inj heq).symm)]
          · intro w hw
            have hwx : w ≠ x := fun heq => hxl (heq ▸ hw)
            have hwy : ¬ c.first j = some w := by
              rw [hload]
              exact fun heq => (List.nodup_cons.mp hnodup).1 (Option.some.inj heq ▸ hw)
            rw [load_addHead, if_neg (by simp), if_neg (fun heq => hwx (Cell.next.inj heq)),
              pprev_addHead, if_neg hwx, if_neg hwy]
            exact ⟨rfl, rfl⟩
  · rw [Function.update_of_ne hj]
    refine (h j).congr ?_ ?_
    · rw [load_addHead, if_neg (fun heq => hj (Cell.first.inj heq)), if_neg (by simp)]
    · intro w hw
      have hwx : w ≠ x := fun heq => hnew j (heq ▸ hw)
      have hwi : ¬ c.first i = some w := fun heq => hj (hapart.one j i w hw (hfirst i w heq))
      rw [load_addHead, if_neg (by simp), if_neg (fun heq => hwx (Cell.next.inj heq)),
        pprev_addHead, if_neg hwx, if_neg hwi]
      exact ⟨rfl, rfl⟩

end Chains

end Links
