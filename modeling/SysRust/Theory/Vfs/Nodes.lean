import SysRust.Core.Vfs
import SysRust.Lib.Tree
import Mathlib.Data.List.GetD

/-!
# The Nodes

The store of nodes seen as a graph: the children of a node are the pointers
in its used slots. The invariant is about every live node, also about those
that an operation has cut off from the root: each node is listed by one
directory at most, the one its parent pointer names. That the nodes below the
root form a tree follows, as the root is listed nowhere.

## Main definitions

* `slots`, `kids`: The used slots of a node, and of the node at an address.
* `NodeOk`: The used slots are the ones that are not null.
* `Inv`: The invariant of the file system.
* `Reaches`, `Live`: The nodes below the root, and all nodes.

## Theorems

* `slots_push`, `slots_removeSlot`: The edits of a children array.
* `live_of_reaches`, `parent_of_reaches`: Walks from the root read live nodes
  only, down and up.
* `not_own_kid`: No node below the root lists itself.
-/

namespace SysRust.Vfs

open ChildTree Function List

/-! ### Slots -/

/-- The pointers in the used slots. -/
def VfsNode.slots (n : VfsNode) : List Ptr := (List.range n.numChildren).map n.children

/-- The used slots are the non-null ones, there are at most 128, and only a
    directory has any. A directory can look up names. -/
structure NodeOk (n : VfsNode) : Prop where
  bound : n.numChildren ≤ VFS_MAX_CHILDREN
  used : ∀ i, n.children i ≠ 0 ↔ i < n.numChildren
  dir : n.numChildren ≠ 0 → n.flags &&& VFS_DIRECTORY ≠ 0
  finds : n.flags &&& VFS_DIRECTORY ≠ 0 → n.finddirFn ≠ none

theorem slots_push (n : VfsNode) (c : Ptr) : (n.push c).slots = n.slots ++ [c] := by
  simp only [VfsNode.slots, VfsNode.push, range_succ, map_append, map_cons,
    map_nil, update_self, append_cancel_right_eq]
  refine map_congr_left (fun i hi => ?_)
  rw [mem_range] at hi
  exact update_of_ne (by omega) _ _

variable {c p q : Ptr} {n m dn : VfsNode} {idx : Nat} {s : Vfs}

theorem nodeOk_push (h : NodeOk n) (hc : c ≠ 0) (hroom : n.numChildren < VFS_MAX_CHILDREN)
    (hdir : n.flags &&& VFS_DIRECTORY ≠ 0) : NodeOk (n.push c) := by
  refine ⟨hroom, fun i => ?_, fun _ => hdir, h.finds⟩
  simp only [VfsNode.push]
  by_cases hi : i = n.numChildren
  · rw [hi, update_self]
    exact ⟨fun _ => Nat.lt_succ_self _, fun _ => hc⟩
  · rw [update_of_ne hi, h.used i]
    omega

/-- The loop moves the slots behind the gap down by one. -/
theorem shiftDown_apply (k i : Nat) (children : Nat → Ptr) (j : Nat) :
    shiftDown k i children j = if i ≤ j ∧ j < i + k then children (j + 1) else children j := by
  fun_induction shiftDown k i children with
  | case1 => rw [if_neg (by omega)]
  | case2 k i children ih =>
    rw [ih]
    by_cases hj : i + 1 ≤ j ∧ j < i + 1 + k
    · rw [if_pos hj, if_pos (by omega), update_of_ne (by omega)]
    · rw [if_neg hj]
      by_cases hji : j = i
      · rw [hji, update_self, if_pos (by omega)]
      · rw [update_of_ne hji, if_neg (by omega)]

theorem removeSlot_children (n : VfsNode) (hidx : idx < n.numChildren) (j : Nat) :
    (n.removeSlot idx).children j =
      if j = n.numChildren - 1 then 0
      else if idx ≤ j ∧ j < n.numChildren - 1 then n.children (j + 1) else n.children j := by
  simp only [VfsNode.removeSlot]
  by_cases hj : j = n.numChildren - 1
  · rw [if_pos hj, hj, update_self]
  · rw [if_neg hj, update_of_ne hj, shiftDown_apply]
    have hend : idx + (n.numChildren - 1 - idx) = n.numChildren - 1 := by omega
    rw [hend]

theorem slots_removeSlot (n : VfsNode) (hidx : idx < n.numChildren) :
    (n.removeSlot idx).slots = n.slots.eraseIdx idx := by
  refine ext_getElem ?_ (fun i h1 h2 => ?_)
  · simp only [VfsNode.slots, VfsNode.removeSlot, length_map, length_range,
      length_eraseIdx, hidx, if_true]
  · have hi : i < n.numChildren - 1 := by
      simp only [VfsNode.slots, VfsNode.removeSlot, length_map, length_range] at h1
      exact h1
    rw [getElem_eraseIdx]
    simp only [VfsNode.slots, getElem_map, getElem_range]
    rw [removeSlot_children n hidx, if_neg (by omega)]
    by_cases hlt : i < idx
    · rw [if_neg (by omega), dif_pos hlt]
    · rw [if_pos (by omega), dif_neg hlt]

theorem nodeOk_removeSlot (h : NodeOk n) (hidx : idx < n.numChildren) :
    NodeOk (n.removeSlot idx) := by
  have hb := h.bound
  refine ⟨?_, fun i => ?_, fun _ => h.dir (by omega), h.finds⟩
  · simp only [VfsNode.removeSlot]
    omega
  · rw [removeSlot_children n hidx]
    simp only [VfsNode.removeSlot]
    split_ifs with hlast hshift
    · exact ⟨fun h0 => absurd rfl h0, fun hlt => by omega⟩
    · rw [h.used (i + 1)]
      omega
    · rw [h.used i]
      omega

/-! ### The store -/

/-- The children of the node at an address. -/
def kids (s : Vfs) (p : Ptr) : List Ptr :=
  match s.nodes p with
  | some n => n.slots
  | none => []

/-- The parent pointer of the node at an address. -/
def parentOf (s : Vfs) (p : Ptr) : Option Ptr := (s.nodes p).map VfsNode.parent

/-- There is a node at the address. -/
def Live (s : Vfs) (p : Ptr) : Prop := ∃ n, s.nodes p = some n

theorem kids_some (h : s.nodes p = some n) : kids s p = n.slots := by
  rw [kids, h]

theorem kids_none (h : s.nodes p = none) : kids s p = [] := by
  rw [kids, h]

/-- A live node is not at a dead address. -/
theorem ne_of_dead (hq : s.nodes q = none) (hp : s.nodes p = some n) : p ≠ q := by
  rintro rfl
  rw [hq] at hp
  cases hp

theorem nodes_setNode_self (s : Vfs) (p : Ptr) (n : VfsNode) :
    (setNode s p n).nodes p = some n := update_self _ _ _

theorem nodes_setNode_of_ne {s : Vfs} {n : VfsNode} (h : q ≠ p) :
    (setNode s p n).nodes q = s.nodes q := update_of_ne h _ _

theorem kids_setNode_self (s : Vfs) (p : Ptr) (n : VfsNode) : kids (setNode s p n) p = n.slots :=
  kids_some (nodes_setNode_self s p n)

theorem kids_setNode_of_ne {s : Vfs} {n : VfsNode} (h : q ≠ p) :
    kids (setNode s p n) q = kids s q := by
  rw [kids, kids, nodes_setNode_of_ne h]

/-- What holds of every node holds after an edit if it holds of the new
    node. -/
theorem forall_setNode {P : VfsNode → Prop} (h : ∀ q m, s.nodes q = some m → P m) (hn : P n)
    (q : Ptr) (m : VfsNode) (hq : (setNode s p n).nodes q = some m) : P m := by
  by_cases hqp : q = p
  · rw [hqp, nodes_setNode_self, Option.some.injEq] at hq
    exact hq ▸ hn
  · rw [nodes_setNode_of_ne hqp] at hq
    exact h q m hq

/-- A value that is read off a node does not change with the node if the new
    one has the same. -/
theorem map_setNode_same {α : Type} (f : VfsNode → α) (hp : s.nodes p = some n) (h : f m = f n)
    (e : Ptr) : ((setNode s p m).nodes e).map f = (s.nodes e).map f := by
  by_cases he : e = p
  · rw [he, nodes_setNode_self, hp, Option.map_some, Option.map_some, h]
  · rw [nodes_setNode_of_ne he]

variable {e d r : Ptr}

/-- An edit of a live node shows in no dead one. -/
theorem dead_setNode (hp : s.nodes p = some n) (he : s.nodes e = none) :
    (setNode s p m).nodes e = none := by
  rw [nodes_setNode_of_ne (ne_of_dead he hp).symm]
  exact he

theorem live_setNode {s : Vfs} {n : VfsNode} (h : Live s e) : Live (setNode s p n) e := by
  unfold Live
  by_cases he : e = p
  · exact ⟨n, by rw [he]; exact nodes_setNode_self s p n⟩
  · rw [nodes_setNode_of_ne he]
    exact h

theorem nodes_freeNode_self (s : Vfs) (p : Ptr) : (freeNode s p).nodes p = none :=
  update_self _ _ _

theorem nodes_freeNode_of_ne (s : Vfs) (h : q ≠ p) :
    (freeNode s p).nodes q = s.nodes q := update_of_ne h _ _

/-- Freeing a node that was just made leaves nothing behind. -/
theorem freeNode_setNode (n : VfsNode) (h : s.nodes p = none) : freeNode (setNode s p n) p = s := by
  unfold freeNode setNode
  simp only [update_idem]
  rw [← h, update_eq_self]

/-- A child is in a slot. -/
theorem mem_kids :
    c ∈ kids s p ↔ ∃ n i, s.nodes p = some n ∧ i < n.numChildren ∧ n.children i = c := by
  unfold kids
  cases hn : s.nodes p with
  | none =>
    constructor
    · intro hc
      exact absurd hc not_mem_nil
    · rintro ⟨n, _, h, _⟩
      exact absurd h (Option.some_ne_none n).symm
  | some n =>
    simp only [VfsNode.slots, mem_map]
    constructor
    · rintro ⟨i, hi, rfl⟩
      exact ⟨n, i, rfl, mem_range.mp hi, rfl⟩
    · rintro ⟨m, i, hm, hi, rfl⟩
      rw [Option.some.injEq] at hm
      exact ⟨i, mem_range.mpr (hm ▸ hi), by rw [hm]⟩

/-! ### The invariant -/

/-- The node can be reached from the root. -/
def Reaches (s : Vfs) (p : Ptr) : Prop := Below (kids s) s.root p

/-- The invariant of the file system: what a node lists has it as its parent,
    and is listed once. If the first allocation failed, there is no root. -/
structure Inv (s : Vfs) : Prop where
  null : s.nodes 0 = none
  top : s.root = 0 ∨ parentOf s s.root = some 0
  nodes : ∀ p n, s.nodes p = some n → NodeOk n
  listed : ∀ d c, c ∈ kids s d → parentOf s c = some d
  nodup : ∀ d, (kids s d).Nodup

theorem node_of_parentOf (h : parentOf s p = some q) :
    ∃ n, s.nodes p = some n ∧ n.parent = q := Option.map_eq_some_iff.mp h

theorem live_of_kid (h : Inv s) (hc : c ∈ kids s d) : Live s c := by
  rcases node_of_parentOf (h.listed d c hc) with ⟨n, hn, _⟩
  exact ⟨n, hn⟩

theorem live_ne_zero (h : Inv s) (hp : Live s p) : p ≠ 0 := by
  rcases hp with ⟨n, hn⟩
  exact ne_of_dead h.null hn

theorem kid_ne_zero (h : Inv s) (hc : c ∈ kids s d) : c ≠ 0 := live_ne_zero h (live_of_kid h hc)

/-- A dead address is listed nowhere. -/
theorem not_kid_dead (h : Inv s) (hp : s.nodes p = none) (d : Ptr) : p ∉ kids s d := by
  intro hc
  rcases live_of_kid h hc with ⟨m, hm⟩
  exact ne_of_dead hp hm rfl

/-- What is listed twice is listed by one node. -/
theorem parent_unique (h : Inv s) (hd : c ∈ kids s d) (he : c ∈ kids s e) : d = e :=
  Option.some.inj ((h.listed d c hd).symm.trans (h.listed e c he))

/-- The root is in no list. -/
theorem root_not_kid (h : Inv s) (d : Ptr) : s.root ∉ kids s d := by
  intro hc
  have hpar := h.listed d s.root hc
  have hd : d = 0 := by
    rcases h.top with htop | htop
    · rw [parentOf, htop, h.null] at hpar
      exact absurd hpar (Option.some_ne_none d).symm
    · rw [htop, Option.some.injEq] at hpar
      exact hpar.symm
  rw [hd, kids_none h.null] at hc
  exact absurd hc not_mem_nil

/-- What can be reached is live. -/
theorem live_of_reaches (h : Inv s) (hp : Reaches s p) (h0 : p ≠ 0) : Live s p := by
  cases hp with
  | refl =>
    rcases h.top with htop | htop
    · exact absurd htop h0
    · rcases node_of_parentOf htop with ⟨n, hn, _⟩
      exact ⟨n, hn⟩
  | step d _ _ hc => exact live_of_kid h hc

theorem root_ne_dead (h : Inv s) (hp0 : p ≠ 0) (hp : s.nodes p = none) : s.root ≠ p := by
  intro hroot
  rcases live_of_reaches h Below.refl (hroot ▸ hp0) with ⟨r, hr⟩
  exact ne_of_dead hp hr hroot

/-- A node that can be reached and has a parent is a child of its parent. -/
theorem parent_of_reaches (h : Inv s) (hp : Reaches s p) (hn : s.nodes p = some n)
    (hpar : n.parent ≠ 0) : p ≠ s.root ∧ Reaches s n.parent ∧ p ∈ kids s n.parent := by
  cases hp with
  | refl =>
    rcases h.top with htop | htop
    · exact absurd htop (ne_of_dead h.null hn)
    · rw [parentOf, hn, Option.map_some, Option.some.injEq] at htop
      exact absurd htop hpar
  | step d _ hd hc =>
    have hdn := h.listed d p hc
    rw [parentOf, hn, Option.map_some, Option.some.injEq] at hdn
    rw [hdn]
    exact ⟨fun hroot => root_not_kid h d (hroot ▸ hc), hd, hc⟩

/-- A node that can be reached does not list itself. -/
theorem not_own_kid (h : Inv s) (hd : Reaches s d) : d ∉ kids s d := by
  induction hd with
  | refl => exact root_not_kid h s.root
  | step e c _ hc ih => exact fun hcc => ih (parent_unique h hc hcc ▸ hcc)

end SysRust.Vfs
