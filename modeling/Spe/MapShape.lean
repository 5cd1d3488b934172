import Mathlib.Data.List.Perm.Basic
import Spe.Links
import Spe.Map

/-!
# The shape of the map (`spe_map.c`)

Each item of a map is on the list and in one chain (`SpeMap.Linked`), whatever the keys are: a key
of 16 bytes or more puts an item into the map that is not found again, but the item hangs on the
list and in a chain like all others.  `SpeMap.Removes` is what `SpeMapDel` and `SpeMapClean` do:
some items leave, and the handler is called for these.
-/

namespace Spe

namespace SpeMap

variable {V : Type}

/-- Each item is on the list and in one chain, and no two items have one address. -/
structure Linked (m : SpeMap V) : Prop where
  addrs : (m.listHead.map MapItem.addr).Nodup
  apart : Links.Chains.Apart fun i => (m.hashHead i).map MapItem.addr
  listed : ∀ i, ∀ item ∈ m.hashHead i, i < m.size ∧ item ∈ m.listHead
  hashed : ∀ item ∈ m.listHead, ∃ i, item ∈ m.hashHead i

/-- The items leave, and the handler is called for each of them. -/
structure Removes (m m' : SpeMap V) (gone : List (MapItem V)) : Prop where
  order : m'.listHead.Sublist m.listHead
  parts : (gone ++ m'.listHead).Perm m.listHead
  handled : m'.handled = m.handled ++ if m.handler then gone.map MapItem.obj else []
  size : m'.size = m.size
  handler : m'.handler = m.handler

/-- A new map. -/
theorem linked_create (size : Nat) (handler : Bool) : (create size handler : SpeMap V).Linked where
  addrs := List.nodup_nil
  apart := ⟨fun _ => List.nodup_nil, fun _ _ _ h => absurd h List.not_mem_nil⟩
  listed := fun _ _ h => absurd h List.not_mem_nil
  hashed := fun _ h => absurd h List.not_mem_nil

/-- The addresses without an item are those without its address. -/
theorem map_eraseP_addr (l : List (MapItem V)) (a : Nat) :
    (l.eraseP fun x => x.addr = a).map MapItem.addr = (l.map MapItem.addr).erase a := by
  induction l with
  | nil => rfl
  | cons x l ih =>
      rw [List.map_cons]
      by_cases hx : x.addr = a
      · rw [List.eraseP_cons_of_pos (by simpa using hx), hx, List.erase_cons_head]
      · rw [List.eraseP_cons_of_neg (by simpa using hx), List.map_cons, ih,
          List.erase_cons_tail (by simpa using hx)]

/-- The other items are left. -/
theorem mem_eraseP_addr {l : List (MapItem V)} (hnodup : (l.map MapItem.addr).Nodup) {a : Nat}
    {x : MapItem V} : x ∈ (l.eraseP fun x => x.addr = a) ↔ x ∈ l ∧ x.addr ≠ a := by
  constructor
  · intro hx
    refine ⟨List.mem_of_mem_eraseP hx, ?_⟩
    have haddr := List.mem_map_of_mem (f := MapItem.addr) hx
    rw [map_eraseP_addr, hnodup.mem_erase_iff] at haddr
    exact haddr.1
  · rintro ⟨hx, hne⟩
    exact (List.mem_eraseP_of_neg (by simpa using hne)).mpr hx

/-- An item that is found is on the list. -/
theorem Linked.of_search {m : SpeMap V} (h : m.Linked) {key : CStr} {item : MapItem V}
    (hfind : m.search key = some item) : item ∈ m.listHead :=
  (h.listed _ item (HashChains.of_lookup hfind).2).2

/-- An item leaves. -/
theorem Linked.itemDestroy {m : SpeMap V} (h : m.Linked) (item : MapItem V) :
    (m.itemDestroy item).Linked where
  addrs := h.addrs.sublist (List.eraseP_sublist.map _)
  apart := by
    constructor
    · exact fun i => (h.apart.nodup i).sublist (List.eraseP_sublist.map _)
    · intro i j a hi hj
      exact h.apart.one i j a ((List.eraseP_sublist.map _).subset hi)
        ((List.eraseP_sublist.map _).subset hj)
  listed := by
    intro i x hx
    obtain ⟨hin, hne⟩ := (mem_eraseP_addr (h.apart.nodup i)).mp hx
    obtain ⟨hi, hlist⟩ := h.listed i x hin
    exact ⟨hi, (mem_eraseP_addr h.addrs).mpr ⟨hlist, hne⟩⟩
  hashed := by
    intro x hx
    obtain ⟨hlist, hne⟩ := (mem_eraseP_addr h.addrs).mp hx
    obtain ⟨i, hi⟩ := h.hashed x hlist
    exact ⟨i, (mem_eraseP_addr (h.apart.nodup i)).mpr ⟨hi, hne⟩⟩

/-- The item that leaves is handled. -/
theorem Linked.removes {m : SpeMap V} (h : m.Linked) {item : MapItem V}
    (hitem : item ∈ m.listHead) : m.Removes (m.itemDestroy item) [item] where
  order := List.eraseP_sublist
  parts := by
    obtain ⟨a, front, back, _, ha, hsplit, herase⟩ :=
      List.exists_of_eraseP (p := fun x => x.addr = item.addr) hitem (by simp)
    have haddr : a.addr = item.addr := by simpa using ha
    obtain rfl : a = item := List.inj_on_of_nodup_map h.addrs
      (hsplit ▸ List.mem_append_right _ List.mem_cons_self) hitem haddr
    change ([a] ++ m.listHead.eraseP fun x => x.addr = a.addr).Perm m.listHead
    rw [herase, hsplit, List.singleton_append]
    exact List.perm_middle.symm
  handled := by
    change (if m.handler then m.handled ++ [item.obj] else m.handled) = _
    split
    · rfl
    · exact (List.append_nil _).symm
  size := rfl
  handler := rfl

/-- Nothing leaves. -/
theorem Removes.refl (m : SpeMap V) : m.Removes m [] where
  order := List.Sublist.refl _
  parts := List.Perm.refl _
  handled := by cases m.handler <;> simp
  size := rfl
  handler := rfl

/-- Items leave, and others after them. -/
theorem Removes.trans {m m' m'' : SpeMap V} {gone gone' : List (MapItem V)}
    (h : m.Removes m' gone) (h' : m'.Removes m'' gone') : m.Removes m'' (gone ++ gone') where
  order := h'.order.trans h.order
  parts := by
    rw [List.append_assoc]
    exact (h'.parts.append_left gone).trans h.parts
  handled := by
    rw [h'.handled, h.handled, h.handler, List.append_assoc]
    cases m.handler <;> simp
  size := h'.size.trans h.size
  handler := h'.handler.trans h.handler

/-- The items of a chain are destroyed, from the head on. -/
theorem Linked.cleanChain {m : SpeMap V} (h : m.Linked) {i : Nat} {chain : List (MapItem V)}
    (hchain : m.hashHead i = chain) :
    (chain.foldl SpeMap.itemDestroy m).Linked ∧
      m.Removes (chain.foldl SpeMap.itemDestroy m) chain := by
  induction chain generalizing m with
  | nil => exact ⟨h, Removes.refl m⟩
  | cons item chain ih =>
      have hlist : item ∈ m.listHead := (h.listed i item (hchain ▸ List.mem_cons_self)).2
      have hrest : (m.itemDestroy item).hashHead i = chain := by
        change (m.hashHead i).eraseP _ = chain
        rw [hchain, List.eraseP_cons_of_pos (by simp)]
      obtain ⟨hlinked, hremoves⟩ := ih (h.itemDestroy item) hrest
      exact ⟨hlinked, (h.removes hlist).trans hremoves⟩

/-- **`SpeMapClean`**: every item leaves. -/
theorem Linked.clean {m : SpeMap V} (h : m.Linked) :
    m.clean.Linked ∧ m.clean.listHead = [] ∧ ∃ gone, m.Removes m.clean gone := by
  have hloop : ∀ k, ((List.range k).foldl SpeMap.cleanChain m).Linked ∧
      ∃ gone, m.Removes ((List.range k).foldl SpeMap.cleanChain m) gone := by
    intro k
    induction k with
    | zero => exact ⟨h, [], Removes.refl m⟩
    | succ k ih =>
        obtain ⟨hlinked, gone, hremoves⟩ := ih
        rw [List.range_succ, List.foldl_append, List.foldl_cons, List.foldl_nil]
        obtain ⟨hlinked', hremoves'⟩ := hlinked.cleanChain (i := k) rfl
        exact ⟨hlinked', _, hremoves.trans hremoves'⟩
  obtain ⟨hlinked, gone, hremoves⟩ := hloop m.size
  obtain ⟨hsize, _, _, hempty⟩ := cleaned_chains m m.size
  have hnil : ((List.range m.size).foldl SpeMap.cleanChain m).listHead = [] := by
    rw [List.eq_nil_iff_forall_not_mem]
    intro x hx
    obtain ⟨i, hi⟩ := hlinked.hashed x hx
    have hlt := (hlinked.listed i x hi).1
    rw [hempty i (hsize ▸ hlt)] at hi
    cases hi
  exact ⟨⟨hlinked.addrs, hlinked.apart, hlinked.listed, hlinked.hashed⟩, hnil, gone,
    ⟨hremoves.order, hremoves.parts, hremoves.handled, hremoves.size, hremoves.handler⟩⟩

/-- A new item hangs on the list and in its chain. -/
theorem Linked.set {m : SpeMap V} (h : m.Linked) (hsize : 0 < m.size) {key : CStr}
    {item : MapItem V} (hnew : ∀ x ∈ m.listHead, x.addr ≠ item.addr) (len : UInt32) :
    Linked { m with
      listHead := m.listHead ++ [item]
      hashHead := HashChains.push m.index m.hashHead key.1 item
      len := len } := by
  have hindex : m.index key.1 < m.size := Nat.mod_lt _ hsize
  have hmem : ∀ i x, x ∈ HashChains.push m.index m.hashHead key.1 item i ↔
      (x = item ∧ i = m.index key.1) ∨ x ∈ m.hashHead i := by
    intro i x
    unfold HashChains.push
    by_cases hi : i = m.index key.1
    · subst hi
      rw [Function.update_self, List.mem_cons, and_iff_left rfl]
    · rw [Function.update_of_ne hi]
      simp [hi]
  have hfresh : ∀ i, ∀ x ∈ m.hashHead i, x.addr ≠ item.addr :=
    fun i x hx => hnew x (h.listed i x hx).2
  refine ⟨?_, ⟨?_, ?_⟩, ?_, ?_⟩
  · rw [List.map_append, List.map_singleton, ← List.concat_eq_append, List.nodup_concat]
    refine ⟨?_, h.addrs⟩
    rw [List.mem_map]
    rintro ⟨x, hx, heq⟩
    exact hnew x hx heq
  · intro i
    unfold HashChains.push
    by_cases hi : i = m.index key.1
    · subst hi
      dsimp only
      rw [Function.update_self, List.map_cons, List.nodup_cons]
      refine ⟨?_, h.apart.nodup _⟩
      rw [List.mem_map]
      rintro ⟨x, hx, heq⟩
      exact hfresh _ x hx heq
    · dsimp only
      rw [Function.update_of_ne hi]
      exact h.apart.nodup i
  · intro i j a hi hj
    obtain ⟨x, hx, rfl⟩ := List.mem_map.mp hi
    obtain ⟨y, hy, heq⟩ := List.mem_map.mp hj
    rcases (hmem i x).mp hx with ⟨rfl, rfl⟩ | hold
    · rcases (hmem j y).mp hy with ⟨_, rfl⟩ | hold'
      · rfl
      · exact absurd heq (hfresh j y hold')
    · rcases (hmem j y).mp hy with ⟨rfl, _⟩ | hold'
      · exact absurd heq.symm (hfresh i x hold)
      · exact h.apart.one i j x.addr (List.mem_map_of_mem hold) (heq ▸ List.mem_map_of_mem hold')
  · intro i x hx
    rcases (hmem i x).mp hx with ⟨rfl, rfl⟩ | hx
    · exact ⟨hindex, List.mem_append_right _ List.mem_cons_self⟩
    · obtain ⟨hi, hlist⟩ := h.listed i x hx
      exact ⟨hi, List.mem_append_left _ hlist⟩
  · intro x hx
    rcases List.mem_append.mp hx with hx | hx
    · obtain ⟨i, hi⟩ := h.hashed x hx
      exact ⟨i, (hmem i x).mpr (Or.inr hi)⟩
    · obtain rfl := List.mem_singleton.mp hx
      exact ⟨_, (hmem _ _).mpr (Or.inl ⟨rfl, rfl⟩)⟩

end SpeMap

end Spe
