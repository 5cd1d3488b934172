import Mathlib.Data.List.Perm.Subperm
import Spe.MapShape

/-!
# The map in memory (`spe_map.c`, `spe_list.h`)

The same functions on the pointers: the ring of `listHead` and the `listNode` of the items, and the
chains of `hashHead` and their `hashNode`.  An item is known by its address, and `items` are those
that are allocated.  A call has no result when it would follow a null pointer, use an item that has
been freed, or go round in a circle.

`MapHeap.Represents` relates the memory to the map of lists and chains.  Every call on the memory
has a result, and it is that of the call on the lists.
-/

namespace Spe

open Transition Links

/-- `speMap_t` with its items: the two kinds of links, and what is allocated. -/
structure MapHeap (V : Type) where
  len : UInt32
  size : Nat
  handler : Bool
  listHead : Links.Ring Nat
  hashHead : Chains Nat
  items : List (MapItem V)
  handled : List (Option V)

namespace MapHeap

variable {V : Type} (m : MapHeap V)

/-- `SpeMapCreate`, with its allocation successful. -/
def create (size : Nat) (handler : Bool) : MapHeap V where
  len := 0
  size := size
  handler := handler
  listHead := Links.Ring.init ⟨fun _ => none, fun _ => none⟩ .head
  hashHead := ⟨fun _ => none, fun _ => none, fun _ => none⟩
  items := []
  handled := []

/-- The item at an address. -/
def item (addr : Nat) : Option (MapItem V) := m.items.find? fun x => x.addr = addr

/-- The chain of a key. -/
def index (key : Bytes) : Nat := (genhashvalue key key.length).toNat % m.size

/-- The loop of `speMapSearch`.  One that meets more nodes than there are items does not end. -/
def searchFrom (key : Bytes) : Nat → Option Nat → Option (Option Nat)
  | _, none => some none
  | 0, some _ => none
  | n + 1, some addr =>
      match m.item addr with
      | none => none
      | some item =>
          if SpeMap.keyOf item = key then some (some addr)
          else searchFrom key n (m.hashHead.next addr)

/-- `speMapSearch`. -/
def search (key : CStr) : Option (Option Nat) :=
  m.searchFrom key.1 m.items.length (m.hashHead.first (m.index key.1))

/-- `speMapItemDestroy`. -/
def itemDestroy (addr : Nat) : Option (MapHeap V) :=
  match m.item addr, m.listHead.del (.node addr), m.hashHead.del addr with
  | some item, some listHead, some hashHead =>
      some { m with
        listHead := listHead
        hashHead := hashHead
        items := m.items.eraseP fun x => x.addr = addr
        handled := if m.handler then m.handled ++ [item.obj] else m.handled }
  | _, _, _ => none

/-- `speMapItemCreate`, and the item is added to the list and to the chain. -/
def addItem (item : MapItem V) (i : Nat) : Option (MapHeap V) :=
  match (m.listHead.init (.node item.addr)).addTail (.node item.addr) with
  | none => none
  | some listHead =>
      some { m with
        listHead := listHead
        hashHead := (m.hashHead.init item.addr).addHead item.addr i
        items := item :: m.items
        len := m.len + 1 }

/-- `SpeMapSet`; `alloc` is the address that `calloc` returns. -/
def set (key : Option CStr) (obj : Option V) (alloc : Option Nat) : Option (MapHeap V × Int) :=
  match key with
  | none => some (m, SPE_MAP_ERROR)
  | some key =>
      match m.search key with
      | none => none
      | some (some _) => some (m, SPE_MAP_CONFLICT)
      | some none =>
          match SpeMap.itemCreate alloc key obj with
          | none => some (m, SPE_MAP_ERROR)
          | some item => (m.addItem item (m.index key.1)).map (·, SPE_MAP_OK)

/-- `SpeMapDel`. -/
def del (key : Option CStr) : Option (MapHeap V × Bool) :=
  match key with
  | none => some (m, false)
  | some key =>
      match m.search key with
      | none => none
      | some none => some (m, false)
      | some (some addr) => (m.itemDestroy addr).map fun m => ({ m with len := m.len - 1 }, true)

/-- The loop of `SpeMapClean` over one chain: the next node is read before the item is freed. -/
def cleanFrom : Nat → Option Nat → MapHeap V → Option (MapHeap V)
  | _, none, m => some m
  | 0, some _, _ => none
  | n + 1, some addr, m =>
      let next := m.hashHead.next addr
      match m.itemDestroy addr with
      | none => none
      | some m => cleanFrom n next m

/-- `SpeMapClean`. -/
def clean : Option (MapHeap V) :=
  ((List.range m.size).foldlM
    (fun m i => cleanFrom m.items.length (m.hashHead.first i) m) m).map fun m => { m with len := 0 }

/-- `SpeMapNext`. -/
def next : Option Nat → Option (Option Nat)
  | none => (m.listHead.next .head).map Spot.node?
  | some addr =>
      match m.item addr with
      | none => none
      | some _ => (m.listHead.next (.node addr)).map Spot.node?

/-- The memory holds the lists and the chains. -/
structure Represents (s : SpeMap V) : Prop where
  len : m.len = s.len
  size : m.size = s.size
  handler : m.handler = s.handler
  ring : m.listHead.Seg .head (s.listHead.map MapItem.addr)
  chains : m.hashHead.Holds fun i => (s.hashHead i).map MapItem.addr
  items : m.items.Perm s.listHead
  handled : m.handled = s.handled

variable {m} {s : SpeMap V}

/-- A new map. -/
theorem represents_create (size : Nat) (handler : Bool) :
    (create size handler : MapHeap V).Represents (SpeMap.create size handler) where
  len := rfl
  size := rfl
  handler := rfl
  ring := Links.Ring.seg_init _
  chains := fun _ => rfl
  items := List.Perm.refl _
  handled := rfl

/-- The chain behind a head. -/
theorem Represents.chain (h : m.Represents s) (i : Nat) :
    m.hashHead.Seg (.first i) ((s.hashHead i).map MapItem.addr) := h.chains i

/-- An item on the list is found at its address. -/
theorem Represents.item_eq (h : m.Represents s) (hs : s.Linked) {item : MapItem V}
    (hitem : item ∈ s.listHead) : m.item item.addr = some item := by
  unfold MapHeap.item
  cases hfind : m.items.find? fun x => x.addr = item.addr with
  | none =>
      rw [List.find?_eq_none] at hfind
      exact absurd (decide_eq_true rfl) (hfind item (h.items.mem_iff.mpr hitem))
  | some x =>
      have haddr : x.addr = item.addr := by simpa using List.find?_some hfind
      have hx : x ∈ s.listHead := h.items.mem_iff.mp (List.mem_of_find?_eq_some hfind)
      rw [List.inj_on_of_nodup_map hs.addrs hx hitem haddr]

/-- A chain has no more nodes than there are items. -/
theorem Represents.chain_length (h : m.Represents s) (hs : s.Linked) (i : Nat) :
    (s.hashHead i).length ≤ m.items.length := by
  have hsub : (s.hashHead i).map MapItem.addr ⊆ s.listHead.map MapItem.addr := by
    intro a ha
    obtain ⟨item, hitem, rfl⟩ := List.mem_map.mp ha
    exact List.mem_map_of_mem (hs.listed i item hitem).2
  have hle := ((hs.apart.nodup i).subperm hsub).length_le
  rw [List.length_map, List.length_map] at hle
  exact hle.trans (Nat.le_of_eq h.items.length_eq.symm)

/-- The walk over a chain. -/
theorem searchFrom_eq {key : Bytes} {chain : List (MapItem V)} {p : Cell Nat} {n : Nat}
    (hseg : m.hashHead.Seg p (chain.map MapItem.addr))
    (hitem : ∀ item ∈ chain, m.item item.addr = some item) (hn : chain.length ≤ n) :
    m.searchFrom key n (m.hashHead.load p) =
      some ((chain.find? fun x => SpeMap.keyOf x = key).map MapItem.addr) := by
  induction chain generalizing p n with
  | nil =>
      rw [hseg.load_eq]
      cases n <;> rfl
  | cons item chain ih =>
      obtain ⟨n, rfl⟩ : ∃ k, n = k + 1 := ⟨n - 1, by rw [List.length_cons] at hn; omega⟩
      obtain ⟨hload, _, htail⟩ := hseg
      obtain ⟨hfirst, hitem⟩ := List.forall_mem_cons.mp hitem
      rw [hload, searchFrom, hfirst]
      dsimp only
      by_cases hkey : SpeMap.keyOf item = key
      · rw [if_pos hkey, List.find?_cons_of_pos (by simpa using hkey)]
        rfl
      · rw [if_neg hkey, List.find?_cons_of_neg (by simpa using hkey)]
        exact ih htail hitem (Nat.le_of_succ_le_succ hn)

/-- **`speMapSearch`.** -/
theorem Represents.search (h : m.Represents s) (hs : s.Linked) (key : CStr) :
    m.search key = some ((s.search key).map MapItem.addr) := by
  have hindex : m.index key.1 = s.index key.1 := by
    unfold MapHeap.index SpeMap.index
    rw [h.size]
  unfold MapHeap.search
  rw [hindex]
  exact searchFrom_eq (h.chains (s.index key.1))
    (fun item hitem => h.item_eq hs (hs.listed _ item hitem).2) (h.chain_length hs _)

/-- **`speMapItemDestroy`.** -/
theorem Represents.itemDestroy (h : m.Represents s) (hs : s.Linked) {item : MapItem V}
    (hitem : item ∈ s.listHead) :
    ∃ m', m.itemDestroy item.addr = some m' ∧ m'.Represents (s.itemDestroy item) := by
  obtain ⟨i, hi⟩ := hs.hashed item hitem
  obtain ⟨ring, hring, hseg⟩ := h.ring.del hs.addrs (List.mem_map_of_mem hitem)
  obtain ⟨chains, hchains, hholds⟩ := h.chains.del hs.apart (i := i) (List.mem_map_of_mem hi)
  refine ⟨{ m with
      listHead := ring
      hashHead := chains
      items := m.items.eraseP fun x => x.addr = item.addr
      handled := if m.handler then m.handled ++ [item.obj] else m.handled }, ?_, ?_⟩
  · unfold MapHeap.itemDestroy
    rw [h.item_eq hs hitem, hring, hchains]
  · refine ⟨h.len, h.size, h.handler, ?_, ?_, ?_, ?_⟩
    · change ring.Seg .head ((s.listHead.eraseP _).map MapItem.addr)
      rw [SpeMap.map_eraseP_addr]
      exact hseg
    · intro j
      have hj : chains.Seg (.first j) (((s.hashHead j).map MapItem.addr).erase item.addr) :=
        hholds j
      rw [← SpeMap.map_eraseP_addr] at hj
      exact hj
    · have hnodup : (m.items.map MapItem.addr).Nodup := (h.items.map _).nodup_iff.mpr hs.addrs
      refine h.items.eraseP _ ((List.pairwise_map.mp hnodup).imp ?_)
      intro x y hne hx hy
      exact hne ((of_decide_eq_true hx).trans (of_decide_eq_true hy).symm)
    · change (if m.handler then m.handled ++ [item.obj] else m.handled) = _
      rw [h.handler, h.handled]
      rfl

/-- The loop of `SpeMapClean` over one chain. -/
theorem Represents.cleanFrom (h : m.Represents s) (hs : s.Linked) {i : Nat}
    {chain : List (MapItem V)} (hchain : s.hashHead i = chain) {n : Nat}
    (hn : chain.length ≤ n) :
    ∃ m', MapHeap.cleanFrom n (m.hashHead.first i) m = some m' ∧
      m'.Represents (chain.foldl SpeMap.itemDestroy s) := by
  induction chain generalizing m s n with
  | nil =>
      have hfirst := (h.chain i).load_eq
      rw [hchain] at hfirst
      have hfirst : m.hashHead.first i = none := hfirst
      rw [hfirst]
      exact ⟨m, by cases n <;> rfl, h⟩
  | cons item chain ih =>
      obtain ⟨n, rfl⟩ : ∃ k, n = k + 1 := ⟨n - 1, by rw [List.length_cons] at hn; omega⟩
      have hseg := h.chain i
      rw [hchain] at hseg
      obtain ⟨hload, _, htail⟩ := hseg
      have hload : m.hashHead.first i = some item.addr := hload
      obtain ⟨m', hdestroy, hm'⟩ :=
        h.itemDestroy hs (hs.listed i item (hchain ▸ List.mem_cons_self)).2
      have hrest : (s.itemDestroy item).hashHead i = chain := by
        change (s.hashHead i).eraseP _ = chain
        rw [hchain, List.eraseP_cons_of_pos (by simp)]
      -- the node that was read before the item was freed is the first one now
      have hnext : m.hashHead.next item.addr = m'.hashHead.first i := by
        have hfirst := (hm'.chain i).load_eq
        rw [hrest] at hfirst
        exact htail.load_eq.trans hfirst.symm
      obtain ⟨m'', hclean, hm''⟩ := ih hm' (hs.itemDestroy item) hrest (Nat.le_of_succ_le_succ hn)
      refine ⟨m'', ?_, hm''⟩
      rw [hload, MapHeap.cleanFrom, hdestroy, hnext]
      exact hclean

/-- **`SpeMapClean`.** -/
theorem Represents.clean (h : m.Represents s) (hs : s.Linked) :
    ∃ m', m.clean = some m' ∧ m'.Represents s.clean := by
  have hloop : ∀ k, ∃ m', (List.range k).foldlM (fun m i =>
      MapHeap.cleanFrom m.items.length (m.hashHead.first i) m) m = some m' ∧
      m'.Represents ((List.range k).foldl SpeMap.cleanChain s) ∧
      ((List.range k).foldl SpeMap.cleanChain s).Linked := by
    intro k
    induction k with
    | zero => exact ⟨m, rfl, h, hs⟩
    | succ k ih =>
        obtain ⟨m', hm', hrep, hlinked⟩ := ih
        obtain ⟨m'', hm'', hrep'⟩ := hrep.cleanFrom hlinked rfl (hrep.chain_length hlinked k)
        refine ⟨m'', ?_, ?_, ?_⟩
        · rw [List.range_succ, List.foldlM_append, hm', Option.bind_eq_bind, Option.bind_some,
            List.foldlM_cons, hm'']
          rfl
        · rw [List.range_succ, List.foldl_append]
          exact hrep'
        · rw [List.range_succ, List.foldl_append]
          exact (hlinked.cleanChain rfl).1
  obtain ⟨m', hm', hrep, _⟩ := hloop s.size
  refine ⟨{ m' with len := 0 }, ?_, ?_⟩
  · unfold MapHeap.clean
    rw [h.size, hm']
    rfl
  · exact ⟨rfl, hrep.size, hrep.handler, hrep.ring, hrep.chains, hrep.items, hrep.handled⟩

/-- An item is created, and added to the list and to its chain. -/
theorem Represents.addItem (h : m.Represents s) (hs : s.Linked) {item : MapItem V}
    (hnew : ∀ x ∈ s.listHead, x.addr ≠ item.addr) (key : Bytes) :
    ∃ m', m.addItem item (s.index key) = some m' ∧ m'.Represents { s with
      listHead := s.listHead ++ [item]
      hashHead := HashChains.push s.index s.hashHead key item
      len := s.len + 1 } := by
  have hlist : item.addr ∉ s.listHead.map MapItem.addr := by
    rw [List.mem_map]
    rintro ⟨x, hx, heq⟩
    exact hnew x hx heq
  have hchain : ∀ j, item.addr ∉ (s.hashHead j).map MapItem.addr := by
    intro j hmem
    obtain ⟨x, hx, heq⟩ := List.mem_map.mp hmem
    exact hnew x (hs.listed j x hx).2 heq
  obtain ⟨ring, hring, hseg⟩ := (h.ring.init hlist).addTail hs.addrs hlist
  refine ⟨{ m with
      listHead := ring
      hashHead := (m.hashHead.init item.addr).addHead item.addr (s.index key)
      items := item :: m.items
      len := m.len + 1 }, ?_, ?_⟩
  · unfold MapHeap.addItem
    rw [hring]
  · refine ⟨?_, h.size, h.handler, ?_, ?_, ?_, h.handled⟩
    · change m.len + 1 = s.len + 1
      rw [h.len]
    · rw [List.map_append]
      exact hseg
    · intro j
      have hj := (h.chains.init hchain).addHead hchain hs.apart (s.index key) j
      change Chains.Seg _ _ ((HashChains.push s.index s.hashHead key item j).map MapItem.addr)
      unfold HashChains.push
      by_cases hji : j = s.index key
      · subst hji
        rw [Function.update_self] at hj ⊢
        exact hj
      · rw [Function.update_of_ne hji] at hj ⊢
        exact hj
    · exact (h.items.cons item).trans (List.perm_append_singleton item s.listHead).symm

/-- **`SpeMapSet`.** -/
theorem Represents.set (h : m.Represents s) (hs : s.Linked) (key : CStr) (obj : Option V)
    {alloc : Option Nat} (hfresh : ∀ addr, alloc = some addr → ∀ x ∈ s.listHead, x.addr ≠ addr) :
    ∃ m', m.set (some key) obj alloc = some (m', (s.set key obj alloc).2) ∧
      m'.Represents (s.set key obj alloc).1 := by
  have hindex : m.index key.1 = s.index key.1 := by
    unfold MapHeap.index SpeMap.index
    rw [h.size]
  unfold MapHeap.set SpeMap.set
  dsimp only
  rw [h.search hs]
  cases hfind : s.search key with
  | some item => exact ⟨m, rfl, h⟩
  | none =>
      cases alloc with
      | none => exact ⟨m, rfl, h⟩
      | some addr =>
          have hnew := hfresh addr rfl
          obtain ⟨m', hm', hrep⟩ := @Represents.addItem V m s h hs
            ⟨addr, strncpy key.1 (SPE_MAP_KEYLEN - 1) ++ [0], obj⟩ hnew key.1
          refine ⟨m', ?_, hrep⟩
          rw [hindex]
          exact congrArg (Option.map (·, SPE_MAP_OK)) hm'

/-- **`SpeMapDel`.** -/
theorem Represents.del (h : m.Represents s) (hs : s.Linked) (key : CStr) :
    ∃ m', m.del (some key) = some (m', (s.del key).2) ∧ m'.Represents (s.del key).1 := by
  unfold MapHeap.del SpeMap.del
  dsimp only
  rw [h.search hs]
  cases hfind : s.search key with
  | none => exact ⟨m, rfl, h⟩
  | some item =>
      obtain ⟨m', hdestroy, hrep⟩ := h.itemDestroy hs (hs.of_search hfind)
      refine ⟨{ m' with len := m'.len - 1 }, ?_, ?_⟩
      · exact congrArg (Option.map fun m => ({ m with len := m.len - 1 }, true)) hdestroy
      · refine ⟨?_, hrep.size, hrep.handler, hrep.ring, hrep.chains, hrep.items, hrep.handled⟩
        change m'.len - 1 = s.len - 1
        rw [hrep.len]
        rfl

/-- **`SpeMapNext`**: called with its own results, it visits the list. -/
theorem Represents.next (h : m.Represents s) (hs : s.Linked) :
    m.next none = some (s.listHead.map MapItem.addr)[0]? ∧
    ∀ k addr, (s.listHead.map MapItem.addr)[k]? = some addr →
      m.next (some addr) = some (s.listHead.map MapItem.addr)[k + 1]? := by
  obtain ⟨hfirst, hlater⟩ := h.ring.next_node
  refine ⟨hfirst, ?_⟩
  intro k addr hk
  obtain ⟨item, hitem, rfl⟩ := List.mem_map.mp (List.mem_of_getElem? hk)
  rw [MapHeap.next, h.item_eq hs hitem]
  exact hlater k item.addr hk

end MapHeap

end Spe
