import Spe.HashChains
import Spe.Opt
import Spe.Transition

/-!
# The hash map (`spe_map.c`)

A map from strings to objects, with a list of all items beside the hash chains.  An
item keeps at most 15 bytes of its key, while the chain is chosen from the whole key, and
the whole key is compared with what was kept.

A run of `SpeMapSet`, `SpeMapDel` and `SpeMapClean` is compared with a partial function
on strings (`MapSpec`).  The map agrees with it as long as all keys that are set have at
most 15 bytes (`map_is_finite_map`); a longer key is never found again
(`map_is_finite_map_fails`).

The loop counter of `SpeMapClean` is read as exact.  `int len` in `genhashvalue` is not.
-/

namespace Spe

open Transition

/-- `SPE_MAP_KEYLEN`. -/
def SPE_MAP_KEYLEN : Nat := 16

/-- `SPE_MAP_OK`. -/
def SPE_MAP_OK : Int := 0

/-- `SPE_MAP_CONFLICT`. -/
def SPE_MAP_CONFLICT : Int := -2

/-- `SPE_MAP_ERROR`. -/
def SPE_MAP_ERROR : Int := -1

/-- `speMapItem_t` at its address: `key` is the array of `SPE_MAP_KEYLEN` bytes, and no
object is `NULL`. -/
structure MapItem (V : Type) where
  addr : Nat
  key : Bytes
  obj : Option V

/-- `speMap_t`: the list of all items, and the chains.  `handled` is history: the objects
that the handler, if there is one, has been called with. -/
structure SpeMap (V : Type) where
  len : UInt32
  size : Nat
  handler : Bool
  listHead : List (MapItem V)
  hashHead : HashChains.Chains (MapItem V)
  handled : List (Option V)

/-- The constant `m` of `genhashvalue`. -/
def hashMul : UInt32 := 0x5bd1e995

/-- The last few bytes of `genhashvalue`. -/
def hashTail (h : UInt32) : Bytes → UInt32
  | [a, b, c] => (h ^^^ (c.toUInt32 <<< 16) ^^^ (b.toUInt32 <<< 8) ^^^ a.toUInt32) * hashMul
  | [a, b] => (h ^^^ (b.toUInt32 <<< 8) ^^^ a.toUInt32) * hashMul
  | [a] => (h ^^^ a.toUInt32) * hashMul
  | _ => h

/-- The loop of `genhashvalue`, four bytes at a time, and the last few. -/
def hashLoop (h : UInt32) : Bytes → UInt32
  | a :: b :: c :: d :: data =>
      let k := a.toUInt32 ||| (b.toUInt32 <<< 8) ||| (c.toUInt32 <<< 16) ||| (d.toUInt32 <<< 24)
      let k := k * hashMul
      let k := k ^^^ (k >>> 24)
      let k := k * hashMul
      hashLoop ((h * hashMul) ^^^ k) data
  | data => hashTail h data

/-- `genhashvalue`.  `len` arrives as an `int`; a negative one hashes no byte. -/
def genhashvalue (key : Bytes) (len : Nat) : UInt32 :=
  let n := len % 2 ^ 32
  let h := hashLoop (5381 ^^^ UInt32.ofNat n) (if n < 2 ^ 31 then key.take n else [])
  let h := h ^^^ (h >>> 13)
  let h := h * hashMul
  h ^^^ (h >>> 15)

namespace SpeMap

variable {V : Type} (m : SpeMap V)

/-- The chain of a key. -/
def index (key : Bytes) : Nat := (genhashvalue key key.length).toNat % m.size

/-- What `strcmp` sees of the key of an item. -/
def keyOf (item : MapItem V) : Bytes := cstr item.key

/-- `SpeMapCreate`, with its allocation successful. -/
def create (size : Nat) (handler : Bool) : SpeMap V where
  len := 0
  size := size
  handler := handler
  listHead := []
  hashHead := fun _ => []
  handled := []

/-- `speMapItemCreate`; `alloc` is the address that `calloc` returns. -/
def itemCreate (alloc : Option Nat) (key : CStr) (obj : Option V) : Option (MapItem V) :=
  alloc.map (fun addr => ⟨addr, strncpy key.1 (SPE_MAP_KEYLEN - 1) ++ [0], obj⟩)

/-- `speMapItemDestroy`: the item leaves the list and its chain. -/
def itemDestroy (item : MapItem V) : SpeMap V :=
  { m with
    listHead := m.listHead.eraseP (fun x => x.addr = item.addr)
    hashHead := HashChains.unlink (fun x => x.addr = item.addr) m.hashHead
    handled := if m.handler then m.handled ++ [item.obj] else m.handled }

/-- `speMapSearch`. -/
def search (key : CStr) : Option (MapItem V) :=
  HashChains.lookup m.index keyOf m.hashHead key.1

/-- `SpeMapGet`. -/
def get (key : CStr) : Option V :=
  match m.search key with
  | none => none
  | some item => item.obj

/-- `SpeMapSet`. -/
def set (key : CStr) (obj : Option V) (alloc : Option Nat) : SpeMap V × Int :=
  match m.search key with
  | some _ => (m, SPE_MAP_CONFLICT)
  | none =>
      match itemCreate alloc key obj with
      | none => (m, SPE_MAP_ERROR)
      | some item =>
          ({ m with
            listHead := m.listHead ++ [item]
            hashHead := HashChains.push m.index m.hashHead key.1 item
            len := m.len + 1 }, SPE_MAP_OK)

/-- `SpeMapDel`. -/
def del (key : CStr) : SpeMap V × Bool :=
  match m.search key with
  | none => (m, false)
  | some item => ({ m.itemDestroy item with len := m.len - 1 }, true)

/-- A round of the loop of `SpeMapClean`, over one chain. -/
def cleanChain (i : Nat) : SpeMap V := (m.hashHead i).foldl itemDestroy m

/-- `SpeMapClean`. -/
def clean : SpeMap V := { (List.range m.size).foldl cleanChain m with len := 0 }

end SpeMap

/-- The calls on a map.  The allocation of `SpeMapSet` is successful: it returns an
address. -/
inductive MapOp (V : Type)
  | set (key : CStr) (obj : Option V) (addr : Nat)
  | del (key : CStr)
  | clean

/-- What a call returns. -/
inductive MapRes
  | code (res : Int)
  | found (res : Bool)
  | void
  deriving DecidableEq

/-- A call on the map. -/
def SpeMap.apply {V : Type} (m : SpeMap V) : MapOp V → SpeMap V × MapRes
  | .set key obj addr => ((m.set key obj (some addr)).1, .code (m.set key obj (some addr)).2)
  | .del key => ((m.del key).1, .found (m.del key).2)
  | .clean => (m.clean, .void)

/-- A finite map from strings to objects. -/
abbrev MapSpec (V : Type) := CStr → Option (Option V)

/-- The call on a finite map. -/
def MapSpec.apply {V : Type} (σ : MapSpec V) : MapOp V → MapSpec V × MapRes
  | .set key obj _ =>
      if (σ key).isSome then (σ, .code SPE_MAP_CONFLICT)
      else (Function.update σ key (some obj), .code SPE_MAP_OK)
  | .del key => (Function.update σ key none, .found (σ key).isSome)
  | .clean => (fun _ => none, .void)

/-- `calloc` returns no address that is in use. -/
def SpeMap.fresh {V : Type} (m : SpeMap V) : MapOp V → Bool
  | .set _ _ addr => m.listHead.all (fun item => item.addr ≠ addr)
  | _ => true

/-- The same call on a map and on a finite map. -/
def mapStep {V : Type} (s : SpeMap V × MapSpec V) (op : MapOp V) :
    Option (SpeMap V × MapSpec V) :=
  if s.1.fresh op then some ((s.1.apply op).1, (s.2.apply op).1) else none

/-- The key that is set, if one is, has at most 15 bytes. -/
def MapOp.Short {V : Type} : MapOp V → Prop
  | .set key _ _ => key.1.length < SPE_MAP_KEYLEN
  | _ => True

namespace SpeMap

variable {V : Type}

/-- Every key is found exactly if it is present, with its object. -/
def Agrees (m : SpeMap V) (σ : MapSpec V) : Prop :=
  ∀ key, (m.search key).map MapItem.obj = σ key

/-- Each item is in the chain of its key and on the list, no two items have one address,
and the keys fit. -/
structure Wf (m : SpeMap V) : Prop where
  size : 0 < m.size
  short : ∀ i, ∀ item ∈ m.hashHead i, (keyOf item).length < SPE_MAP_KEYLEN
  filed : HashChains.Filed m.index keyOf m.hashHead
  listed : ∀ i, ∀ item ∈ m.hashHead i, item ∈ m.listHead
  addrs : (m.listHead.map MapItem.addr).Nodup

/-- A new map. -/
theorem wf_create {size : Nat} (hsize : 0 < size) (handler : Bool) :
    (create size handler : SpeMap V).Wf where
  size := hsize
  short := fun _ _ h => absurd h List.not_mem_nil
  filed := ⟨fun _ _ h => absurd h List.not_mem_nil, fun _ => List.nodup_nil⟩
  listed := fun _ _ h => absurd h List.not_mem_nil
  addrs := List.nodup_nil

/-- The address of an item is that of no other in the chains. -/
theorem Wf.addr_iff {m : SpeMap V} (h : m.Wf) {i j : Nat} {item : MapItem V}
    (hitem : item ∈ m.hashHead i) : ∀ x ∈ m.hashHead j, x.addr = item.addr ↔ x = item := by
  intro x hx
  constructor
  · exact fun heq => List.inj_on_of_nodup_map h.addrs (h.listed j x hx) (h.listed i item hitem) heq
  · rintro rfl
    rfl

/-- A short key is kept whole. -/
theorem keyOf_create {key : CStr} (hkey : key.1.length < SPE_MAP_KEYLEN) (addr : Nat)
    (obj : Option V) :
    keyOf ⟨addr, strncpy key.1 (SPE_MAP_KEYLEN - 1) ++ [0], obj⟩ = key.1 := by
  have hkey' : key.1.length ≤ SPE_MAP_KEYLEN - 1 := Nat.le_of_lt_succ hkey
  unfold keyOf strncpy
  dsimp only
  rw [cstr_of_clean key.2, List.take_of_length_le hkey', List.append_assoc,
    ← List.replicate_succ', List.replicate_succ, cstr_terminated, cstr_of_clean key.2]

/-- No more than 15 bytes of a key are kept. -/
theorem keyOf_length (key : CStr) (addr : Nat) (obj : Option V) :
    (keyOf ⟨addr, strncpy key.1 (SPE_MAP_KEYLEN - 1) ++ [0], obj⟩).length < SPE_MAP_KEYLEN := by
  have hsame : keyOf ⟨addr, strncpy key.1 (SPE_MAP_KEYLEN - 1) ++ [0], obj⟩ =
      cstr (strncpy key.1 (SPE_MAP_KEYLEN - 1)) := cstr_terminated _ []
  rw [hsame]
  refine Nat.lt_of_le_of_lt (List.takeWhile_prefix _).length_le ?_
  unfold strncpy
  rw [List.length_append, List.length_take, List.length_replicate]
  simp only [SPE_MAP_KEYLEN]
  omega

/-- The item that `SpeMapSet` puts into the map, when the key is not there. -/
theorem set_new {m : SpeMap V} {key : CStr} (hnew : m.search key = none) (obj : Option V)
    (addr : Nat) : ∃ item : MapItem V,
    item = ⟨addr, strncpy key.1 (SPE_MAP_KEYLEN - 1) ++ [0], obj⟩ ∧
    m.set key obj (some addr) = ({ m with
      listHead := m.listHead ++ [item]
      hashHead := HashChains.push m.index m.hashHead key.1 item
      len := m.len + 1 }, SPE_MAP_OK) := by
  refine ⟨_, rfl, ?_⟩
  unfold set
  rw [hnew]
  rfl

/-- **`SpeMapSet`** of a short key. -/
theorem Wf.set {m : SpeMap V} (h : m.Wf) {key : CStr} (hkey : key.1.length < SPE_MAP_KEYLEN)
    {obj : Option V} {addr : Nat} (haddr : m.fresh (.set key obj addr) = true) :
    (m.set key obj (some addr)).1.Wf ∧
    ∀ key', (((m.set key obj (some addr)).1).search key').map MapItem.obj =
      if m.search key = none ∧ key' = key then some obj
      else (m.search key').map MapItem.obj := by
  cases hfind : m.search key with
  | some item =>
      have hsame : (m.set key obj (some addr)).1 = m := by
        unfold SpeMap.set
        rw [hfind]
      rw [hsame]
      exact ⟨h, fun key' => by rw [if_neg (by simp)]⟩
  | none =>
      obtain ⟨item, hitem, hset⟩ := set_new hfind obj addr
      have hkeyOf : keyOf item = key.1 := by rw [hitem, keyOf_create hkey]
      rw [hset]
      refine ⟨⟨h.size, ?_, h.filed.push hkeyOf hfind, ?_, ?_⟩, ?_⟩
      · intro i x hx
        by_cases hi : i = m.index key.1
        · subst hi
          simp only [HashChains.push, Function.update_self] at hx
          rcases List.mem_cons.mp hx with rfl | hx
          · rw [hkeyOf]
            exact hkey
          · exact h.short _ x hx
        · simp only [HashChains.push, Function.update_of_ne hi] at hx
          exact h.short i x hx
      · intro i x hx
        by_cases hi : i = m.index key.1
        · subst hi
          simp only [HashChains.push, Function.update_self] at hx
          rcases List.mem_cons.mp hx with rfl | hx
          · exact List.mem_append_right _ List.mem_cons_self
          · exact List.mem_append_left _ (h.listed _ x hx)
        · simp only [HashChains.push, Function.update_of_ne hi] at hx
          exact List.mem_append_left _ (h.listed i x hx)
      · simp only [fresh, List.all_eq_true, decide_eq_true_eq] at haddr
        simp only [List.map_append, List.map_cons, List.map_nil]
        rw [← List.concat_eq_append, List.nodup_concat]
        refine ⟨?_, h.addrs⟩
        rw [List.mem_map, hitem]
        rintro ⟨x, hx, heq⟩
        exact haddr x hx heq
      · intro key'
        change (HashChains.lookup m.index keyOf (HashChains.push m.index m.hashHead key.1 item)
          key'.1).map MapItem.obj = _
        rw [HashChains.lookup_push hkeyOf]
        by_cases hk : key' = key
        · rw [if_pos (congrArg Subtype.val hk), if_pos ⟨rfl, hk⟩, hitem]
          rfl
        · rw [if_neg (fun heq => hk (Subtype.ext heq)), if_neg (fun hand => hk hand.2)]
          rfl

/-- **`SpeMapSet`** of a key that is too long: it is not found afterwards. -/
theorem set_long {m : SpeMap V} {key : CStr} (hkey : SPE_MAP_KEYLEN ≤ key.1.length)
    (hnew : m.search key = none) (obj : Option V) (addr : Nat) :
    ((m.set key obj (some addr)).1).search key = none := by
  obtain ⟨item, hitem, hset⟩ := set_new hnew obj addr
  rw [hset]
  change HashChains.lookup m.index keyOf (HashChains.push m.index m.hashHead key.1 item) key.1 =
    none
  rw [HashChains.lookup_eq_none]
  intro x hx heq
  simp only [HashChains.push, Function.update_self] at hx
  rcases List.mem_cons.mp hx with rfl | hx
  · have hshort := keyOf_length key addr obj
    rw [← hitem, heq] at hshort
    omega
  · exact HashChains.lookup_eq_none.mp hnew x hx heq

/-- An item leaves a map. -/
theorem Wf.itemDestroy {m : SpeMap V} (h : m.Wf) {i : Nat} {item : MapItem V}
    (hitem : item ∈ m.hashHead i) : (m.itemDestroy item).Wf where
  size := h.size
  short := fun j x hx => h.short j x (List.mem_of_mem_eraseP hx)
  filed := h.filed.unlink _
  listed := by
    intro j x hx
    have hin : x ∈ m.hashHead j := List.mem_of_mem_eraseP hx
    by_cases hsame : x = item
    · subst hsame
      refine absurd hx (h.filed.not_mem_unlink hin ?_)
      intro y hy
      rw [decide_eq_true_eq]
      exact h.addr_iff hin y hy
    · refine (List.mem_eraseP_of_neg ?_).mpr (h.listed j x hin)
      rw [decide_eq_true_eq, h.addr_iff hitem x hin]
      exact hsame
  addrs := h.addrs.sublist (List.eraseP_sublist.map _)

/-- **`SpeMapDel`**. -/
theorem Wf.del {m : SpeMap V} (h : m.Wf) (key : CStr) :
    (m.del key).1.Wf ∧ (m.del key).2 = (m.search key).isSome ∧
    ∀ key', (((m.del key).1).search key').map MapItem.obj =
      if key' = key then none else (m.search key').map MapItem.obj := by
  unfold SpeMap.del
  cases hfind : m.search key with
  | none =>
      refine ⟨h, rfl, ?_⟩
      intro key'
      by_cases hk : key' = key
      · rw [if_pos hk, hk, hfind]
        rfl
      · rw [if_neg hk]
  | some item =>
      obtain ⟨_, hmem⟩ := HashChains.of_lookup hfind
      have hwf := h.itemDestroy hmem
      refine ⟨⟨hwf.size, hwf.short, hwf.filed, hwf.listed, hwf.addrs⟩, rfl, ?_⟩
      intro key'
      have hlookup := h.filed.lookup_unlink (p := fun x => x.addr = item.addr) hfind
        (fun i y hy => by
          rw [decide_eq_true_eq]
          exact h.addr_iff hmem y hy) key'.1
      change (HashChains.lookup m.index keyOf (HashChains.unlink _ m.hashHead) key'.1).map
        MapItem.obj = _
      rw [hlookup]
      by_cases hk : key' = key
      · rw [if_pos (congrArg Subtype.val hk), if_pos hk]
        rfl
      · rw [if_neg (fun heq => hk (Subtype.ext heq)), if_neg hk]
        rfl

/-- A chain whose items are destroyed, from the head on, is empty, and no chain grows. -/
theorem destroyed_chain (items : List (MapItem V)) (m : SpeMap V) :
    (items.foldl SpeMap.itemDestroy m).size = m.size ∧
    (items.foldl SpeMap.itemDestroy m).listHead.Sublist m.listHead ∧
    (∀ j, ((items.foldl SpeMap.itemDestroy m).hashHead j).Sublist (m.hashHead j)) ∧
    ∀ i, m.hashHead i = items → (items.foldl SpeMap.itemDestroy m).hashHead i = [] := by
  induction items generalizing m with
  | nil => exact ⟨rfl, List.Sublist.refl _, fun _ => List.Sublist.refl _, fun _ hi => hi⟩
  | cons item items ih =>
      obtain ⟨hsize, hlist, hchains, hempty⟩ := ih (m.itemDestroy item)
      rw [List.foldl_cons]
      refine ⟨hsize, hlist.trans List.eraseP_sublist,
        fun j => (hchains j).trans List.eraseP_sublist, ?_⟩
      intro i hi
      apply hempty i
      change (m.hashHead i).eraseP _ = items
      rw [hi, List.eraseP_cons_of_pos (by simp)]

/-- The loop of `SpeMapClean`, over the chains so far. -/
theorem cleaned_chains (m : SpeMap V) (k : Nat) :
    ((List.range k).foldl cleanChain m).size = m.size ∧
    ((List.range k).foldl cleanChain m).listHead.Sublist m.listHead ∧
    (∀ j, (((List.range k).foldl cleanChain m).hashHead j).Sublist (m.hashHead j)) ∧
    ∀ i < k, ((List.range k).foldl cleanChain m).hashHead i = [] := by
  induction k with
  | zero =>
      exact ⟨rfl, List.Sublist.refl _, fun _ => List.Sublist.refl _,
        fun i hi => absurd hi (Nat.not_lt_zero i)⟩
  | succ k ih =>
      obtain ⟨hsize, hlist, hchains, hempty⟩ := ih
      rw [List.range_succ, List.foldl_append, List.foldl_cons, List.foldl_nil]
      obtain ⟨hsize', hlist', hchains', hempty'⟩ := destroyed_chain
        (((List.range k).foldl cleanChain m).hashHead k) ((List.range k).foldl cleanChain m)
      refine ⟨hsize'.trans hsize, hlist'.trans hlist,
        fun j => (hchains' j).trans (hchains j), ?_⟩
      intro i hi
      rcases Nat.lt_succ_iff_lt_or_eq.mp hi with hlt | rfl
      · exact List.sublist_nil.mp (hempty i hlt ▸ hchains' i)
      · exact hempty' i rfl

/-- **`SpeMapClean`**. -/
theorem Wf.clean {m : SpeMap V} (h : m.Wf) :
    m.clean.Wf ∧ ∀ key, m.clean.search key = none := by
  obtain ⟨hsize, hlist, hchains, hempty⟩ := cleaned_chains m m.size
  have hnone : ∀ i, m.clean.hashHead i = [] := by
    intro i
    by_cases hi : i < m.size
    · exact hempty i hi
    · rw [List.eq_nil_iff_forall_not_mem]
      intro x hx
      -- the chain of a key is one of the chains of the map
      have hplaced := h.filed.placed i x ((hchains i).subset hx)
      exact hi (hplaced ▸ Nat.mod_lt _ h.size)
  refine ⟨⟨?_, ?_, ⟨?_, ?_⟩, ?_, ?_⟩, ?_⟩
  · change 0 < ((List.range m.size).foldl cleanChain m).size
    rw [hsize]
    exact h.size
  · intro i x hx
    rw [hnone i] at hx
    cases hx
  · intro i x hx
    rw [hnone i] at hx
    cases hx
  · intro i
    rw [hnone i]
    exact List.nodup_nil
  · intro i x hx
    rw [hnone i] at hx
    cases hx
  · exact h.addrs.sublist (hlist.map _)
  · intro key
    refine HashChains.lookup_eq_none.mpr ?_
    intro x hx
    rw [hnone] at hx
    cases hx

/-- What a call returns on a map that agrees with a finite map. -/
theorem Agrees.result {m : SpeMap V} {σ : MapSpec V} (h : m.Agrees σ) (hwf : m.Wf)
    (op : MapOp V) : (m.apply op).2 = (σ.apply op).2 := by
  have hsome : ∀ key, (σ key).isSome = (m.search key).isSome := by
    intro key
    rw [← h key, Option.isSome_map]
  cases op with
  | set key obj addr =>
      simp only [SpeMap.apply, MapSpec.apply, hsome]
      cases hfind : m.search key with
      | some item => simp [SpeMap.set, hfind]
      | none =>
          obtain ⟨item, _, hset⟩ := set_new hfind obj addr
          rw [hset]
          rfl
  | del key =>
      simp only [SpeMap.apply, MapSpec.apply, hsome, (hwf.del key).2.1]
  | clean => rfl

/-- A call with a key that is short keeps the shape of the map. -/
theorem Wf.apply {m : SpeMap V} (h : m.Wf) {op : MapOp V} (hshort : op.Short)
    (hfresh : m.fresh op = true) : (m.apply op).1.Wf := by
  cases op with
  | set key obj addr => exact (h.set hshort hfresh).1
  | del key => exact (h.del key).1
  | clean => exact h.clean.1

/-- **Step lemma.**  The map agrees with the finite map after a call exactly if the key, if
one is set, is short. -/
theorem Agrees.apply_iff {m : SpeMap V} {σ : MapSpec V} (h : m.Agrees σ) (hwf : m.Wf)
    {op : MapOp V} (hfresh : m.fresh op = true) :
    (m.apply op).1.Agrees (σ.apply op).1 ↔ op.Short := by
  cases op with
  | set key obj addr =>
      by_cases hshort : key.1.length < SPE_MAP_KEYLEN
      · refine iff_of_true ?_ hshort
        intro key'
        change Option.map MapItem.obj ((m.set key obj (some addr)).1.search key') = _
        rw [(hwf.set hshort hfresh).2 key', h key']
        simp only [MapSpec.apply]
        cases hfind : m.search key with
        | some item =>
            have hpresent : (σ key).isSome := by rw [← h key, hfind]; rfl
            rw [if_pos hpresent, if_neg (by simp)]
        | none =>
            have hnone : ¬ (σ key).isSome = true := by rw [← h key, hfind]; simp
            rw [if_neg hnone]
            dsimp only
            by_cases hk : key' = key
            · subst hk
              rw [if_pos ⟨rfl, rfl⟩]
              rw [Function.update_self]
            · rw [if_neg (fun hand => hk hand.2), Function.update_of_ne hk]
      · refine iff_of_false ?_ hshort
        intro hagrees
        have hlong : SPE_MAP_KEYLEN ≤ key.1.length := Nat.le_of_not_lt hshort
        -- all keys in the map are short, so the key is new to both
        have hnew : m.search key = none := by
          refine HashChains.lookup_eq_none.mpr ?_
          intro x hx heq
          have hx' := hwf.short _ x hx
          rw [heq] at hx'
          exact hshort hx'
        have habsent : ¬ (σ key).isSome = true := by
          rw [← h key, hnew]
          simp
        have hfound := hagrees key
        simp only [SpeMap.apply, MapSpec.apply, set_long hlong hnew, if_neg habsent,
          Function.update_self, Option.map_none, reduceCtorEq] at hfound
  | del key =>
      refine iff_of_true ?_ trivial
      intro key'
      change Option.map MapItem.obj ((m.del key).1.search key') = _
      rw [(hwf.del key).2.2 key', h key']
      simp only [MapSpec.apply]
      by_cases hk : key' = key
      · subst hk
        rw [if_pos rfl, Function.update_self]
      · rw [if_neg hk, Function.update_of_ne hk]
  | clean =>
      refine iff_of_true ?_ trivial
      intro key
      change Option.map MapItem.obj (m.clean.search key) = none
      rw [hwf.clean.2 key]
      rfl

/-- A step of the map and the finite map. -/
theorem mapStep_eq_some {s s' : SpeMap V × MapSpec V} {op : MapOp V} :
    mapStep s op = some s' ↔
      s.1.fresh op = true ∧ s' = ((s.1.apply op).1, (s.2.apply op).1) := by
  unfold mapStep
  by_cases hfresh : s.1.fresh op = true
  · rw [if_pos hfresh, Option.some.injEq]
    exact ⟨fun h => ⟨hfresh, h.symm⟩, fun h => h.2.symm⟩
  · rw [if_neg hfresh]
    exact ⟨by rintro ⟨⟩, fun h => absurd h.1 hfresh⟩

/-- The map is a finite map in the run: at all times every key is found exactly if it is
present, `SpeMapGet` returns its object, and the next call returns what it returns on a
finite map. -/
structure IsFiniteMap (size : Nat) (handler : Bool) (ops : List (MapOp V)) : Prop where
  present : ∀ done todo m σ, ops = done ++ todo →
    Run mapStep anyStep (create size handler, fun _ => none) done (m, σ) → m.Agrees σ
  gets : ∀ done todo m σ, ops = done ++ todo →
    Run mapStep anyStep (create size handler, fun _ => none) done (m, σ) →
    ∀ key, m.get key = (σ key).join
  returns : ∀ done op todo m σ, ops = done ++ op :: todo →
    Run mapStep anyStep (create size handler, fun _ => none) done (m, σ) →
    (m.apply op).2 = (σ.apply op).2

/-- What `SpeMapGet` returns. -/
theorem Agrees.get {m : SpeMap V} {σ : MapSpec V} (h : m.Agrees σ) (key : CStr) :
    m.get key = (σ key).join := by
  rw [← h key]
  unfold SpeMap.get
  cases m.search key with
  | none => rfl
  | some item => rfl

/-- **The map is a finite map** in a run exactly if all keys that are set in it have at
most 15 bytes. -/
theorem map_is_finite_map {size : Nat} (hsize : 0 < size) {handler : Bool}
    {ops : List (MapOp V)} {s : SpeMap V × MapSpec V}
    (hrun : Run mapStep anyStep (create size handler, fun _ => none) ops s) :
    IsFiniteMap size handler ops ↔ ∀ op ∈ ops, op.Short := by
  have hwf : (create size handler : SpeMap V).Wf := wf_create hsize handler
  have hkeep : ∀ (s : SpeMap V × MapSpec V) (op : MapOp V) (s' : SpeMap V × MapSpec V),
      s.1.Wf → op.Short → mapStep s op = some s' → s'.1.Wf := by
    intro s op s' hs hshort hstep
    obtain ⟨hfresh, rfl⟩ := mapStep_eq_some.mp hstep
    exact hs.apply hshort hfresh
  have hexact := Run.exact (fun s => s.1.Wf) (fun s => s.1.Agrees s.2) hrun hwf (fun _ => rfl) hkeep (by
      intro s op s' hs hagrees hstep
      obtain ⟨hfresh, rfl⟩ := mapStep_eq_some.mp hstep
      exact hagrees.apply_iff hs hfresh)
  have hforall : Run mapStep (fun _ op => op.Short) (create size handler, fun _ => none) ops s ↔
      ∀ op ∈ ops, op.Short :=
    Run.forall_iff.trans ⟨And.right, And.intro hrun⟩
  constructor
  · intro h
    exact hforall.mp (hexact.mp (fun done todo m heq hdone => h.present done todo m.1 m.2 heq hdone))
  · intro hshort
    have hpresent := hexact.mpr (hforall.mpr hshort)
    refine ⟨fun done todo m σ heq hdone => hpresent done todo (m, σ) heq hdone,
      fun done todo m σ heq hdone => (hpresent done todo (m, σ) heq hdone).get, ?_⟩
    intro done op todo m σ heq hdone
    have hagrees : m.Agrees σ := hpresent done (op :: todo) (m, σ) heq hdone
    have hdone' : Run mapStep (fun _ op => op.Short) (create size handler, fun _ => none) done
        (m, σ) := by
      refine Run.forall_iff.mpr ⟨hdone, fun x hx => hshort x ?_⟩
      rw [heq]
      exact List.mem_append_left _ hx
    exact hagrees.result (hdone'.invariant (fun s => s.1.Wf) hwf hkeep) op

/-- Two keys, the second the first with a byte more, are set, and the first is set again and
deleted. -/
theorem map_is_finite_map_two :
    IsFiniteMap 17 false [.set ⟨[116, 49], by decide⟩ (some 1) 100,
      .set ⟨[116, 49, 50], by decide⟩ (some 2) 200, .set ⟨[116, 49], by decide⟩ (some 3) 300,
      .del ⟨[116, 49], by decide⟩] := by
  refine (map_is_finite_map (by decide) (run_iff_exec.mpr rfl)).mpr ?_
  intro op hop
  simp only [List.mem_cons, List.not_mem_nil, or_false] at hop
  rcases hop with rfl | rfl | rfl | rfl
  · exact (by decide : 2 < 16)
  · exact (by decide : 3 < 16)
  · exact (by decide : 2 < 16)
  · trivial

/-- A key of 16 bytes. -/
def longKey : CStr := ⟨List.replicate 16 97, by decide⟩

/-- **A key of 16 bytes** is set with `SPE_MAP_OK`, and is not there. -/
theorem map_is_finite_map_fails :
    ((create 17 false).set longKey (some 1) (some 100)).2 = SPE_MAP_OK ∧
    ((create 17 false).set longKey (some 1) (some 100)).1.get longKey = none ∧
    ¬ IsFiniteMap 17 false [.set longKey (some 1) 100] := by
  have hnew : (create 17 false : SpeMap Nat).search longKey = none := rfl
  have hlost : ((create 17 false).set longKey (some 1) (some 100)).1.get longKey = none := by
    unfold get
    rw [set_long (Nat.le_of_eq rfl) hnew (some 1) 100]
  refine ⟨rfl, hlost, ?_⟩
  intro h
  have hget := h.gets [.set longKey (some 1) 100] [] _ _ rfl
    (Run.single (mapStep_eq_some.mpr ⟨rfl, rfl⟩) trivial) longKey
  have hpresent : (MapSpec.apply (fun _ => none) (.set longKey (some 1) 100)).1 longKey =
      some (some 1) := by simp [MapSpec.apply]
  rw [hpresent] at hget
  cases hlost.symm.trans hget

end SpeMap

end Spe
