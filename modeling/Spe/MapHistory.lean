import Spe.MapLinks

/-!
# The map over its life (`spe_map.c`)

`SpeMapSet`, `SpeMapDel` and `SpeMapClean` are called in any order, with any keys, and `calloc` may
fail.  In every state that is reached the memory has its shape (`MapHeap.Shaped`), and every call
has a result and does to the items what it should (`MapHeap.CallLaw`).

`Len` is an `unsigned`: it is the number of items modulo 2^32.
-/

namespace Spe

open Transition Links

/-- The calls on a map; the key may be null, and `calloc` returns an address or fails. -/
inductive MapCall (V : Type)
  | set (key : Option CStr) (obj : Option V) (alloc : Option Nat)
  | del (key : Option CStr)
  | clean

/-- When the item at an address was inserted: history. -/
structure Births where
  clock : Nat
  born : Nat → Nat

namespace SpeMap

variable {V : Type}

/-- A call on the lists. -/
def call (s : SpeMap V) : MapCall V → SpeMap V × MapRes
  | .set none _ _ => (s, .code SPE_MAP_ERROR)
  | .set (some key) obj alloc => ((s.set key obj alloc).1, .code (s.set key obj alloc).2)
  | .del none => (s, .found false)
  | .del (some key) => ((s.del key).1, .found (s.del key).2)
  | .clean => (s.clean, .void)

end SpeMap

namespace MapHeap

variable {V : Type} (m : MapHeap V)

/-- A call. -/
def call : MapCall V → Option (MapHeap V × MapRes)
  | .set key obj alloc => (m.set key obj alloc).map fun out => (out.1, .code out.2)
  | .del key => (m.del key).map fun out => (out.1, .found out.2)
  | .clean => m.clean.map (·, .void)

/-- `calloc` returns no address that is in use. -/
def fresh : MapCall V → Bool
  | .set _ _ (some addr) => m.items.all fun x => x.addr ≠ addr
  | _ => true

/-- One call of the run. -/
def step (c : MapCall V) : Option (MapHeap V) :=
  if m.fresh c then (m.call c).map Prod.fst else none

/-- An item that is inserted is younger than all others. -/
def birth (c : MapCall V) (b : Births) : Births :=
  match c with
  | .set _ _ (some addr) =>
      if (m.call c).map Prod.snd = some (.code SPE_MAP_OK) then
        ⟨b.clock + 1, Function.update b.born addr b.clock⟩
      else b
  | _ => b

/-- What the first calls of `SpeMapNext` return, each called with the result before it. -/
def nexts : Nat → Option (Option Nat)
  | 0 => some none
  | k + 1 => (nexts k).bind m.next

/-- The shape of the memory: `list` is threaded behind `listHead`, in the order of insertion, each
of its items is in one chain and once there, `Len` counts them, and `SpeMapNext` visits them. -/
structure Shaped (b : Births) (list : List Nat) : Prop where
  threaded : m.listHead.Seg .head list
  items : (m.items.map MapItem.addr).Perm list
  nodup : list.Nodup
  len : m.len.toNat = list.length % 2 ^ 32
  chains : ∃ chains, m.hashHead.Holds chains ∧ Chains.Apart chains ∧
    (∀ i, ∀ addr ∈ chains i, i < m.size ∧ addr ∈ list) ∧ ∀ addr ∈ list, ∃ i, addr ∈ chains i
  order : list.Pairwise fun x y => b.born x < b.born y
  visits : ∀ k ≤ list.length, m.nexts (k + 1) = some list[k]?

/-- Some items come and some leave, and the handler is called for those that leave. -/
structure Does (m' : MapHeap V) (come gone : List (MapItem V)) : Prop where
  items : (gone ++ m'.items).Perm (come ++ m.items)
  handled : m'.handled = m.handled ++ if m.handler then gone.map MapItem.obj else []
  handler : m'.handler = m.handler

/-- What a call does: `SpeMapSet` adds one item or none, `SpeMapDel` removes one or none, and
`SpeMapClean` removes all. -/
def CallLaw (m' : MapHeap V) (res : MapRes) : MapCall V → Prop
  | .set _ _ _ => ∃ come, m.Does m' come [] ∧
      come.length = if res = .code SPE_MAP_OK then 1 else 0
  | .del _ => ∃ gone, m.Does m' [] gone ∧ gone.length = if res = .found true then 1 else 0
  | .clean => ∃ gone, m.Does m' [] gone ∧ m'.items = []

end MapHeap

namespace SpeMap

variable {V : Type} {s : SpeMap V} {b : Births}

/-- What holds of the lists in a run. -/
structure Aged (s : SpeMap V) (b : Births) : Prop where
  linked : s.Linked
  size : 0 < s.size
  len : s.len.toNat = s.listHead.length % 2 ^ 32
  order : (s.listHead.map MapItem.addr).Pairwise fun x y => b.born x < b.born y
  past : ∀ item ∈ s.listHead, b.born item.addr < b.clock

/-- What a call adds to the list and removes from it. -/
def Changes (s s' : SpeMap V) (res : MapRes) : MapCall V → Prop
  | .set _ _ alloc => (s' = s ∧ res ≠ .code SPE_MAP_OK) ∨
      ∃ item, alloc = some item.addr ∧ res = .code SPE_MAP_OK ∧
        s'.listHead = s.listHead ++ [item] ∧ s'.len = s.len + 1 ∧ s'.handled = s.handled ∧
        s'.handler = s.handler
  | .del _ => (s' = s ∧ res = .found false) ∨
      ∃ item, s.Removes s' [item] ∧ s'.len = s.len - 1 ∧ res = .found true
  | .clean => s'.listHead = [] ∧ s'.len = 0 ∧ ∃ gone, s.Removes s' gone

/-- An address that `calloc` returns is that of no item. -/
def Fresh (s : SpeMap V) : MapCall V → Prop
  | .set _ _ (some addr) => ∀ x ∈ s.listHead, x.addr ≠ addr
  | _ => True

/-- A new map. -/
theorem aged_create {size : Nat} (hsize : 0 < size) (handler : Bool) (b : Births) :
    (create size handler : SpeMap V).Aged b where
  linked := linked_create size handler
  size := hsize
  len := rfl
  order := List.Pairwise.nil
  past := fun _ h => absurd h List.not_mem_nil

/-- **A call** changes the lists as it should, and keeps them linked. -/
theorem Linked.call (h : s.Linked) (hsize : 0 < s.size) {c : MapCall V} (hfresh : s.Fresh c) :
    (s.call c).1.Linked ∧ (s.call c).1.size = s.size ∧
      s.Changes (s.call c).1 (s.call c).2 c := by
  cases c with
  | set key obj alloc =>
      cases key with
      | none => exact ⟨h, rfl, Or.inl ⟨rfl, by simp [SpeMap.call, SPE_MAP_ERROR, SPE_MAP_OK]⟩⟩
      | some key =>
          unfold SpeMap.call SpeMap.set
          dsimp only
          cases hfind : s.search key with
          | some item => exact ⟨h, rfl, Or.inl ⟨rfl, by simp [SPE_MAP_CONFLICT, SPE_MAP_OK]⟩⟩
          | none =>
              cases alloc with
              | none => exact ⟨h, rfl, Or.inl ⟨rfl, by simp [SPE_MAP_ERROR, SPE_MAP_OK,
                  SpeMap.itemCreate]⟩⟩
              | some addr =>
                  exact ⟨@Linked.set V s h hsize key ⟨addr, _, obj⟩ hfresh _, rfl,
                    Or.inr ⟨_, rfl, rfl, rfl, rfl, rfl, rfl⟩⟩
  | del key =>
      cases key with
      | none => exact ⟨h, rfl, Or.inl ⟨rfl, rfl⟩⟩
      | some key =>
          unfold SpeMap.call SpeMap.del
          dsimp only
          cases hfind : s.search key with
          | none => exact ⟨h, rfl, Or.inl ⟨rfl, rfl⟩⟩
          | some item =>
              have hlinked := h.itemDestroy item
              have hremoves := h.removes (h.of_search hfind)
              exact ⟨⟨hlinked.addrs, hlinked.apart, hlinked.listed, hlinked.hashed⟩, rfl,
                Or.inr ⟨item, ⟨hremoves.order, hremoves.parts, hremoves.handled, rfl, rfl⟩, rfl,
                  rfl⟩⟩
  | clean =>
      obtain ⟨hlinked, hnil, gone, hremoves⟩ := h.clean
      exact ⟨hlinked, hremoves.size, hnil, rfl, gone, hremoves⟩

/-- Items that leave do not disturb the others. -/
theorem Aged.removes (h : s.Aged b) {s' : SpeMap V} (hlinked : s'.Linked) {gone : List (MapItem V)}
    (hremoves : s.Removes s' gone) (hlen : s'.len.toNat = s'.listHead.length % 2 ^ 32) :
    s'.Aged b where
  linked := hlinked
  size := hremoves.size ▸ h.size
  len := hlen
  order := h.order.sublist (hremoves.order.map _)
  past := fun item hitem => h.past item (hremoves.order.subset hitem)

/-- The counter after an item is added. -/
theorem len_succ {len : UInt32} {n : Nat} (h : len.toNat = n % 2 ^ 32) :
    (len + 1).toNat = (n + 1) % 2 ^ 32 := by
  rw [UInt32.toNat_add, h]
  simp

/-- The counter after an item is removed. -/
theorem len_pred {len : UInt32} {n : Nat} (h : len.toNat = (n + 1) % 2 ^ 32) :
    (len - 1).toNat = n % 2 ^ 32 := by
  rw [UInt32.toNat_sub, h]
  simp only [UInt32.toNat_one, Nat.reducePow]
  omega

/-- An item that is inserted is the youngest. -/
theorem Aged.insert (h : s.Aged b) {s' : SpeMap V} {item : MapItem V} (hlinked : s'.Linked)
    (hsize : s'.size = s.size) (hlist : s'.listHead = s.listHead ++ [item])
    (hlen : s'.len = s.len + 1) :
    s'.Aged ⟨b.clock + 1, Function.update b.born item.addr b.clock⟩ := by
  have hnew : ∀ x ∈ s.listHead, x.addr ≠ item.addr := by
    have hnodup := hlinked.addrs
    rw [hlist, List.map_append, List.map_singleton, ← List.concat_eq_append,
      List.nodup_concat] at hnodup
    exact fun x hx heq => hnodup.1 (heq ▸ List.mem_map_of_mem hx)
  have hsame : ∀ x ∈ s.listHead, Function.update b.born item.addr b.clock x.addr = b.born x.addr :=
    fun x hx => Function.update_of_ne (hnew x hx) _ _
  constructor
  · exact hlinked
  · rw [hsize]
    exact h.size
  · rw [hlist, hlen, List.length_append, List.length_singleton]
    exact len_succ h.len
  · rw [hlist, List.map_append, List.pairwise_append]
    refine ⟨?_, List.pairwise_singleton _ _, ?_⟩
    · have horder := List.pairwise_map.mp h.order
      rw [List.pairwise_map]
      refine horder.imp_of_mem ?_
      intro x y hx hy hlt
      dsimp only
      rw [hsame x hx, hsame y hy]
      exact hlt
    · intro a ha y hy
      obtain ⟨x, hx, rfl⟩ := List.mem_map.mp ha
      obtain rfl : y = item.addr := by simpa using hy
      dsimp only
      rw [hsame x hx, Function.update_self]
      exact h.past x hx
  · intro x hx
    rw [hlist] at hx
    dsimp only
    rcases List.mem_append.mp hx with hold | hlast
    · rw [hsame x hold]
      exact Nat.lt_succ_of_lt (h.past x hold)
    · obtain rfl := List.mem_singleton.mp hlast
      rw [Function.update_self]
      exact Nat.lt_succ_self _

end SpeMap

namespace MapHeap

variable {V : Type} {m m' : MapHeap V} {s : SpeMap V} {b : Births}

/-- An address that is not in use is that of no item on the list. -/
theorem Represents.fresh (h : m.Represents s) {c : MapCall V} (hfresh : m.fresh c = true) :
    s.Fresh c := by
  unfold MapHeap.fresh at hfresh
  unfold SpeMap.Fresh
  split at hfresh
  · intro x hx
    exact of_decide_eq_true (List.all_eq_true.mp hfresh x (h.items.mem_iff.mpr hx))
  · trivial

/-- **A call** on the memory is the call on the lists. -/
theorem Represents.call (h : m.Represents s) (hs : s.Linked) {c : MapCall V}
    (hfresh : m.fresh c = true) :
    ∃ m', m.call c = some (m', (s.call c).2) ∧ m'.Represents (s.call c).1 := by
  have hfresh := h.fresh hfresh
  unfold MapHeap.call SpeMap.call
  cases c with
  | set key obj alloc =>
      cases key with
      | none => exact ⟨m, rfl, h⟩
      | some key =>
          have hnew : ∀ addr, alloc = some addr → ∀ x ∈ s.listHead, x.addr ≠ addr := by
            rintro addr rfl
            exact hfresh
          obtain ⟨m', hset, hrep⟩ := h.set hs key obj hnew
          exact ⟨m', congrArg (Option.map _) hset, hrep⟩
  | del key =>
      cases key with
      | none => exact ⟨m, rfl, h⟩
      | some key =>
          obtain ⟨m', hdel, hrep⟩ := h.del hs key
          exact ⟨m', congrArg (Option.map _) hdel, hrep⟩
  | clean =>
      obtain ⟨m', hclean, hrep⟩ := h.clean hs
      exact ⟨m', congrArg (Option.map _) hclean, hrep⟩

/-- Items that leave the list are freed. -/
theorem Represents.does (h : m.Represents s) {s' : SpeMap V} (h' : m'.Represents s')
    {gone : List (MapItem V)} (hremoves : s.Removes s' gone) : m.Does m' [] gone where
  items := ((h'.items.append_left gone).trans hremoves.parts).trans h.items.symm
  handled := by rw [h'.handled, h.handled, h.handler, hremoves.handled]
  handler := by rw [h'.handler, h.handler, hremoves.handler]

/-- What a call changes on the lists it changes in memory. -/
theorem Represents.law (h : m.Represents s) {s' : SpeMap V} (h' : m'.Represents s') {res : MapRes}
    {c : MapCall V} (hchanges : s.Changes s' res c) : m.CallLaw m' res c := by
  cases c with
  | set key obj alloc =>
      rcases hchanges with ⟨rfl, hres⟩ | ⟨item, _, rfl, hlist, _, hhandled, hhandler⟩
      · exact ⟨[], h.does h' (SpeMap.Removes.refl _), by rw [if_neg hres]; rfl⟩
      · refine ⟨[item], ⟨?_, ?_, ?_⟩, by rw [if_pos rfl]; rfl⟩
        · have hitems := h'.items
          rw [hlist] at hitems
          exact hitems.trans ((List.perm_append_comm).trans (h.items.symm.append_left [item]))
        · rw [h'.handled, hhandled, h.handled]
          cases m.handler <;> simp
        · rw [h'.handler, hhandler, h.handler]
  | del key =>
      rcases hchanges with ⟨rfl, rfl⟩ | ⟨item, hremoves, _, rfl⟩
      · exact ⟨[], h.does h' (SpeMap.Removes.refl _), by simp⟩
      · exact ⟨[item], h.does h' hremoves, by simp⟩
  | clean =>
      obtain ⟨hnil, _, gone, hremoves⟩ := hchanges
      refine ⟨gone, h.does h' hremoves, ?_⟩
      have hitems := h'.items
      rw [hnil] at hitems
      exact hitems.eq_nil

/-- **A step** keeps the lists of the right age. -/
theorem Represents.aged (h : m.Represents s) (haged : s.Aged b) {c : MapCall V}
    (hfresh : m.fresh c = true) : (s.call c).1.Aged (m.birth c b) := by
  obtain ⟨m', hcall, _⟩ := h.call haged.linked hfresh
  obtain ⟨hlinked, hsize, hchanges⟩ := haged.linked.call haged.size (h.fresh hfresh)
  have hres : (m.call c).map Prod.snd = some (s.call c).2 := by rw [hcall]; rfl
  cases c with
  | set key obj alloc =>
      rcases hchanges with ⟨hsame, hres'⟩ | ⟨item, rfl, hok, hlist, hlen, _, _⟩
      · have hbirth : m.birth (.set key obj alloc) b = b := by
          unfold MapHeap.birth
          cases alloc with
          | none => rfl
          | some addr =>
              dsimp only
              rw [hres, if_neg (fun heq => hres' (Option.some.inj heq))]
        rw [hbirth, hsame]
        exact haged
      · have hbirth : m.birth (.set key obj (some item.addr)) b =
            ⟨b.clock + 1, Function.update b.born item.addr b.clock⟩ := by
          unfold MapHeap.birth
          dsimp only
          rw [hres, if_pos (by rw [hok])]
        rw [hbirth]
        exact haged.insert hlinked hsize hlist hlen
  | del key =>
      rcases hchanges with ⟨hsame, _⟩ | ⟨item, hremoves, hlen, _⟩
      · rw [hsame]
        exact haged
      · refine haged.removes hlinked hremoves ?_
        have hcount : (s.call (.del key)).1.listHead.length + 1 = s.listHead.length := by
          rw [← hremoves.parts.length_eq, List.singleton_append, List.length_cons]
        rw [hlen]
        exact SpeMap.len_pred (hcount ▸ haged.len)
  | clean =>
      obtain ⟨hnil, hlen, gone, hremoves⟩ := hchanges
      refine haged.removes hlinked hremoves ?_
      rw [hlen, hnil]
      rfl

/-- The lists are the shape of the memory. -/
theorem Represents.shaped (h : m.Represents s) (haged : s.Aged b) :
    m.Shaped b (s.listHead.map MapItem.addr) where
  threaded := h.ring
  items := h.items.map _
  nodup := haged.linked.addrs
  len := by rw [h.len, haged.len, List.length_map]
  chains := by
    refine ⟨_, h.chains, haged.linked.apart, ?_, ?_⟩
    · intro i addr haddr
      obtain ⟨item, hitem, rfl⟩ := List.mem_map.mp haddr
      obtain ⟨hi, hlist⟩ := haged.linked.listed i item hitem
      exact ⟨h.size ▸ hi, List.mem_map_of_mem hlist⟩
    · intro addr haddr
      obtain ⟨item, hitem, rfl⟩ := List.mem_map.mp haddr
      obtain ⟨i, hi⟩ := haged.linked.hashed item hitem
      exact ⟨i, List.mem_map_of_mem hi⟩
  order := haged.order
  visits := by
    obtain ⟨hfirst, hlater⟩ := h.next haged.linked
    intro k hk
    induction k with
    | zero => exact hfirst
    | succ k ih =>
        have hbefore := ih (Nat.le_of_succ_le hk)
        obtain ⟨addr, haddr⟩ : ∃ addr, (s.listHead.map MapItem.addr)[k]? = some addr :=
          ⟨_, List.getElem?_eq_getElem hk⟩
        rw [nexts, hbefore, haddr, Option.bind_some]
        exact hlater k addr haddr

/-- What a run keeps: the memory holds lists of the right age. -/
def Kept (m : MapHeap V) (b : Births) : Prop := ∃ s, m.Represents s ∧ s.Aged b

/-- One call of the run. -/
theorem step_eq_some {c : MapCall V} : m.step c = some m' ↔
    m.fresh c = true ∧ ∃ res, m.call c = some (m', res) := by
  unfold MapHeap.step
  by_cases hfresh : m.fresh c = true
  · rw [if_pos hfresh, Option.map_eq_some_iff]
    simp [hfresh]
  · rw [if_neg hfresh]
    simp [hfresh]

/-- **Step lemma.** -/
theorem Kept.step (h : m.Kept b) {c : MapCall V} (hstep : m.step c = some m') :
    m'.Kept (m.birth c b) := by
  obtain ⟨s, hrep, haged⟩ := h
  obtain ⟨hfresh, res, hcall⟩ := step_eq_some.mp hstep
  obtain ⟨m'', hcall', hrep'⟩ := hrep.call haged.linked hfresh
  obtain rfl : m' = m'' := (Prod.mk.inj (Option.some.inj (hcall.symm.trans hcall'))).1
  exact ⟨_, hrep', hrep.aged haged hfresh⟩

/-- **The map over its life.**  In every state that is reached the memory has its shape, and every
call has a result and does what it should. -/
theorem map_keeps_shape {size : Nat} (hsize : 0 < size) {handler : Bool} {calls : List (MapCall V)}
    {m : MapHeap V} {b : Births}
    (hrun : Run (noted step birth) anyStep (create size handler, ⟨0, fun _ => 0⟩) calls (m, b)) :
    (∃ list, m.Shaped b list) ∧
      ∀ c, m.fresh c = true → ∃ m' res, m.call c = some (m', res) ∧ m.CallLaw m' res c := by
  have hkept : m.Kept b := by
    refine hrun.invariant (fun p => p.1.Kept p.2)
      ⟨_, represents_create size handler, SpeMap.aged_create hsize handler _⟩ ?_
    rintro ⟨m, b⟩ c ⟨m', b'⟩ h _ hstep
    obtain ⟨hstep, rfl⟩ := noted_eq_some.mp hstep
    exact h.step hstep
  obtain ⟨s, hrep, haged⟩ := hkept
  refine ⟨⟨_, hrep.shaped haged⟩, ?_⟩
  intro c hfresh
  obtain ⟨m', hcall, hrep'⟩ := hrep.call haged.linked hfresh
  obtain ⟨_, _, hchanges⟩ := haged.linked.call haged.size (hrep.fresh hfresh)
  exact ⟨m', _, hcall, hrep.law hrep' hchanges⟩

/-- Two keys are set, a third has no memory, the first is deleted, and its address used again. -/
theorem map_keeps_shape_two : ∃ (m : MapHeap Nat) (b : Births) (list : List Nat),
    Run (noted step birth) anyStep (create 2 true, ⟨0, fun _ => 0⟩)
      [.set (some ⟨[116, 49], by decide⟩) (some 1) (some 100),
        .set (some SpeMap.longKey) (some 2) (some 200), .set (some ⟨[97], by decide⟩) (some 3) none,
        .del (some ⟨[116, 49], by decide⟩), .set (some ⟨[97], by decide⟩) (some 4) (some 100)]
      (m, b) ∧
    m.items.length = 2 ∧ m.handled = [some 1] ∧ m.Shaped b list := by
  have hexec : (exec (noted step birth) ((create 2 true : MapHeap Nat), ⟨0, fun _ => 0⟩)
      [.set (some ⟨[116, 49], by decide⟩) (some 1) (some 100),
        .set (some SpeMap.longKey) (some 2) (some 200), .set (some ⟨[97], by decide⟩) (some 3) none,
        .del (some ⟨[116, 49], by decide⟩),
        .set (some ⟨[97], by decide⟩) (some 4) (some 100)]).map
      (fun p => (p.1.items.length, p.1.handled)) = some (2, [some 1]) := by
    decide +kernel
  obtain ⟨⟨m, b⟩, hrun, hout⟩ := Option.map_eq_some_iff.mp hexec
  obtain ⟨hlength, hhandled⟩ := Prod.mk.inj hout
  have hrun := run_iff_exec.mpr hrun
  obtain ⟨⟨list, hshaped⟩, _⟩ := map_keeps_shape (by decide) hrun
  exact ⟨m, b, list, hrun, hlength, hhandled, hshaped⟩

/-- A map is filled with items whose key is too long to be found. -/
theorem filled (n : Nat) : ∃ calls m b s,
    Run (noted step birth) anyStep ((create 1 false : MapHeap Unit), ⟨0, fun _ => 0⟩) calls (m, b) ∧
    m.Represents s ∧ s.Aged b ∧ s.listHead.length = n ∧
    ∀ x ∈ s.listHead, x.addr < n ∧ (SpeMap.keyOf x).length < SPE_MAP_KEYLEN := by
  induction n with
  | zero =>
      exact ⟨[], _, _, _, Run.nil _, represents_create 1 false,
        SpeMap.aged_create (by decide) false _, rfl, fun _ h => absurd h List.not_mem_nil⟩
  | succ n ih =>
      obtain ⟨calls, m, b, s, hrun, hrep, haged, hlength, hitems⟩ := ih
      have hnone : s.search SpeMap.longKey = none := by
        refine HashChains.lookup_eq_none.mpr ?_
        intro x hx hkey
        have hshort := (hitems x (haged.linked.listed _ x hx).2).2
        rw [hkey] at hshort
        exact absurd hshort (by decide)
      obtain ⟨item, hitem, hset⟩ := SpeMap.set_new hnone none n
      have hfresh : m.fresh (.set (some SpeMap.longKey) none (some n)) = true := by
        refine List.all_eq_true.mpr ?_
        intro x hx
        have hlt := (hitems x (hrep.items.mem_iff.mp hx)).1
        exact decide_eq_true (by omega)
      obtain ⟨m', hcall, hrep'⟩ := hrep.call haged.linked hfresh
      have hstep : m.step (.set (some SpeMap.longKey) none (some n)) = some m' :=
        step_eq_some.mpr ⟨hfresh, _, hcall⟩
      have hlist : (s.call (.set (some SpeMap.longKey) none (some n))).1.listHead =
          s.listHead ++ [item] := by
        unfold SpeMap.call
        dsimp only
        rw [hset]
      refine ⟨_, m', _, _, hrun.append (Run.single (noted_eq_some.mpr ⟨hstep, rfl⟩) trivial), hrep',
        hrep.aged haged hfresh, ?_, ?_⟩
      · rw [hlist, List.length_append, List.length_singleton, hlength]
      · intro x hx
        rw [hlist] at hx
        rcases List.mem_append.mp hx with hold | hlast
        · obtain ⟨hlt, hshort⟩ := hitems x hold
          exact ⟨Nat.lt_succ_of_lt hlt, hshort⟩
        · obtain rfl := List.mem_singleton.mp hlast
          rw [hitem]
          exact ⟨Nat.lt_succ_self n, SpeMap.keyOf_length _ _ _⟩

/-- **2^32 items**: `Len` is 0. -/
theorem map_keeps_shape_fails :
    ¬ ∀ (calls : List (MapCall Unit)) (m : MapHeap Unit) (b : Births),
      Run (noted step birth) anyStep ((create 1 false : MapHeap Unit), ⟨0, fun _ => 0⟩) calls
        (m, b) →
      ∀ list, m.listHead.Seg .head list → m.len.toNat = list.length := by
  intro hall
  obtain ⟨calls, m, b, s, hrun, hrep, haged, hlength, _⟩ := filled (2 ^ 32)
  have hcount := hall calls m b hrun _ hrep.ring
  rw [hrep.len, haged.len, List.length_map, hlength] at hcount
  simp at hcount

end MapHeap

end Spe
