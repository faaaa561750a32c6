import SysRust.Theory.Vfs.Nodes

/-!
# Edits of the Nodes

The file system makes nodes, takes a child out of its directory, and adds a
node that no directory lists to one. An edit of one children array or one
name shows in one directory only, so each edit keeps the invariant wherever
the node is, and says what becomes of the names.

## Main definitions

* `kidNames`, `UniqueKids`: The names of a directory's children, and that they
  are different.
* `Shrunk`: An edit that lists less.
* `Loose`: A node that no directory lists.
* `Hung`: What adding a loose node is to do.
* `Taken`: What taking a child out is to do.

## Theorems

* `Shrunk.inv`, `Shrunk.unique`: Edits that list less keep the invariant and
  the names different.
* `shrunk_leak`, `taken_cut`, `taken_renamed`: The edits of that kind.
* `addChild_loose`: Adding a loose node.
* `Hung.unique`: The names stay different if the new one is.
-/

namespace SysRust.Vfs

open ChildTree Option

/-! ### Names -/

def nameAt (s : Vfs) (p : Ptr) : Option CStr := (s.nodes p).map VfsNode.name

/-- The names of the children of a directory. -/
def kidNames (s : Vfs) (d : Ptr) : List (Option CStr) := (kids s d).map (nameAt s)

/-- The children of a directory have different names. -/
def UniqueKids (s : Vfs) : Prop := ∀ d, (kidNames s d).Nodup

variable {c d e p q x y : Ptr} {s t : Vfs} {n : VfsNode}

/-- The children of a directory are told apart by their names. -/
theorem kid_eq_of_name (h : UniqueKids s) (hc : c ∈ kids s d) (he : e ∈ kids s d)
    (hname : nameAt s c = nameAt s e) : c = e :=
  List.inj_on_of_nodup_map (h d) hc he hname

theorem live_iff_nameAt : Live s p ↔ nameAt s p ≠ none := by
  rw [Live, nameAt, ne_eq, map_eq_none_iff, ← ne_eq, ne_none_iff_exists']

/-! ### Edits that list less -/

/-- An edit that changes one node and cuts lists short, and after which that
    node is listed nowhere. -/
structure Shrunk (s : Vfs) (x : Ptr) (t : Vfs) : Prop where
  root : t.root = s.root
  nodes : ∀ p n, t.nodes p = some n → NodeOk n
  sub : ∀ d, (kids t d).Sublist (kids s d)
  unlisted : ∀ d, x ∉ kids t d
  name : ∀ p, p ≠ x → nameAt t p = nameAt s p
  parent : ∀ p, p ≠ x → parentOf t p = parentOf s p

theorem Shrunk.live (hx : Shrunk s x t) (hpx : p ≠ x) : Live t p ↔ Live s p := by
  rw [live_iff_nameAt, hx.name p hpx, live_iff_nameAt]

theorem Shrunk.inv (hx : Shrunk s x t) (h : Inv s) (hx0 : x ≠ 0) (hrx : s.root ≠ x) : Inv t := by
  have hne : ∀ d c, c ∈ kids t d → c ≠ x := fun d c hc hcx => hx.unlisted d (hcx ▸ hc)
  refine ⟨?_, ?_, hx.nodes, fun d c hc => ?_, fun d => (h.nodup d).sublist (hx.sub d)⟩
  · have hname := hx.name 0 hx0.symm
    rw [nameAt, nameAt, h.null, map_none] at hname
    exact map_eq_none_iff.mp hname
  · rw [hx.root, hx.parent s.root hrx]
    exact h.top
  · rw [hx.parent c (hne d c hc)]
    exact h.listed d c ((hx.sub d).subset hc)

theorem Shrunk.unique (hx : Shrunk s x t) (hu : UniqueKids s) : UniqueKids t := by
  intro d
  have hmap : kidNames t d = (kids t d).map (nameAt s) :=
    List.map_congr_left (fun c hc => hx.name c (fun hcx => hx.unlisted d (hcx ▸ hc)))
  rw [hmap]
  exact (hu d).sublist ((hx.sub d).map (nameAt s))

/-- A node that no directory lists. -/
structure Loose (s : Vfs) (y : Ptr) : Prop where
  root : y ≠ s.root
  live : Live s y
  unlisted : ∀ d, y ∉ kids s d

/-! ### A new node -/

/-- A node that nothing points to yet. -/
structure Fresh (n : VfsNode) : Prop where
  empty : n.numChildren = 0
  null : ∀ i, n.children i = 0
  finds : n.flags &&& VFS_DIRECTORY ≠ 0 → n.finddirFn ≠ none

theorem fresh_slots (h : Fresh n) : n.slots = [] := by
  rw [VfsNode.slots, h.empty]
  rfl

theorem fresh_nodeOk (h : Fresh n) : NodeOk n := by
  refine ⟨?_, fun i => ?_, fun h0 => absurd h.empty h0, h.finds⟩
  · rw [h.empty]
    exact Nat.zero_le _
  · rw [h.null i, h.empty]
    exact ⟨fun h0 => absurd rfl h0, fun hlt => absurd hlt (Nat.not_lt_zero i)⟩

theorem kids_leak (hx : s.nodes x = none) (hn : Fresh n) : kids (setNode s x n) = kids s := by
  funext p
  by_cases hp : p = x
  · rw [hp, kids_setNode_self, kids_none hx, fresh_slots hn]
  · exact kids_setNode_of_ne hp

theorem nameAt_setNode_of_ne (s : Vfs) (n : VfsNode) (h : q ≠ p) :
    nameAt (setNode s p n) q = nameAt s q := by
  rw [nameAt, nodes_setNode_of_ne h, nameAt]

theorem parentOf_setNode_of_ne (s : Vfs) (n : VfsNode) (h : q ≠ p) :
    parentOf (setNode s p n) q = parentOf s q := by
  rw [parentOf, nodes_setNode_of_ne h, parentOf]

section Leak

variable (h : Inv s) (hx : s.nodes x = none) (hn : Fresh n)

include h hx hn

theorem shrunk_leak : Shrunk s x (setNode s x n) where
  root := rfl
  nodes := forall_setNode h.nodes (fresh_nodeOk hn)
  sub := fun d => by rw [kids_leak hx hn]
  unlisted := fun d => by rw [kids_leak hx hn]; exact not_kid_dead h hx d
  name := fun _ hp => nameAt_setNode_of_ne s n hp
  parent := fun _ hp => parentOf_setNode_of_ne s n hp

/-- A new node changes nothing, and hangs nowhere. -/
theorem inv_leak (hx0 : x ≠ 0) : Inv (setNode s x n) ∧ Loose (setNode s x n) x := by
  have hrx := root_ne_dead h hx0 hx
  have hshrunk := shrunk_leak h hx hn
  exact ⟨hshrunk.inv h hx0 hrx, hrx.symm, ⟨n, nodes_setNode_self s x n⟩, hshrunk.unlisted⟩

/-- It shows in no list of names. -/
theorem kidNames_leak (d : Ptr) : kidNames (setNode s x n) d = kidNames s d := by
  rw [kidNames, kids_leak hx hn]
  refine List.map_congr_left (fun c hc => nameAt_setNode_of_ne s n (fun hcx => ?_))
  exact not_kid_dead h hx d (hcx ▸ hc)

end Leak

theorem reaches_leak (hx : s.nodes x = none) (hn : Fresh n) (p : Ptr) :
    Reaches (setNode s x n) p ↔ Reaches s p := by
  unfold Reaches
  rw [kids_leak hx hn]
  exact Iff.rfl

/-! ### Adding a loose node -/

/-- There is room for another child. -/
def Room (p : VfsNode) : Prop :=
  p.flags &&& VFS_DIRECTORY ≠ 0 ∧ p.numChildren < VFS_MAX_CHILDREN

instance (p : VfsNode) : Decidable (Room p) := inferInstanceAs (Decidable (_ ∧ _))

/-- What `addChild` is to do with a loose node. -/
structure Hung (s : Vfs) (parent y : Ptr) (t : Vfs) : Prop where
  inv : Inv t
  root : t.root = s.root
  name : nameAt t = nameAt s
  room : ∃ p, s.nodes parent = some p ∧ Room p
  dir : kids t parent = kids s parent ++ [y]
  other : ∀ e, e ≠ parent → kids t e = kids s e

section Hung

variable {parent : Ptr} (h : Hung s parent y t)

include h

theorem Hung.mem : c ∈ kids t e ↔ c ∈ kids s e ∨ (e = parent ∧ c = y) := by
  by_cases he : e = parent
  · rw [he, h.dir, List.mem_append, List.mem_singleton]
    simp only [true_and]
  · rw [h.other e he]
    simp only [he, false_and, or_false]

theorem Hung.listed : y ∈ kids t parent := h.mem.mpr (Or.inr ⟨rfl, rfl⟩)

theorem Hung.live : Live t p ↔ Live s p := by
  rw [live_iff_nameAt, h.name, live_iff_nameAt]

theorem Hung.dead (hp : s.nodes p = none) : t.nodes p = none := by
  have hname : nameAt t p = nameAt s p := by rw [h.name]
  rw [nameAt, nameAt, hp, map_none] at hname
  exact map_eq_none_iff.mp hname

theorem Hung.keeps (hp : Reaches s p) : Reaches t p := by
  rw [Reaches, h.root]
  exact below_mono (fun _ _ hc => h.mem.mpr (Or.inl hc)) hp

theorem Hung.loose (hxy : x ≠ y) (hx : Loose s x) : Loose t x := by
  refine ⟨h.root ▸ hx.root, h.live.mpr hx.live, fun d hd => ?_⟩
  rcases h.mem.mp hd with hd | ⟨_, hd⟩
  · exact hx.unlisted d hd
  · exact hxy hd

theorem Hung.names {nm : Option CStr} (hnm : nm ∈ kidNames t d) :
    nm ∈ kidNames s d ∨ (d = parent ∧ nm = nameAt s y) := by
  rcases List.mem_map.mp hnm with ⟨a, ha, hanm⟩
  rw [h.name] at hanm
  rcases h.mem.mp ha with ha | ⟨hd, ha⟩
  · exact Or.inl (hanm ▸ List.mem_map_of_mem ha)
  · rw [ha] at hanm
    exact Or.inr ⟨hd, hanm.symm⟩

/-- The names stay different if the name of the node is new. -/
theorem Hung.unique (hu : UniqueKids s) (hnew : nameAt s y ∉ kidNames s parent) :
    UniqueKids t := by
  intro d
  rw [kidNames, h.name]
  by_cases hd : d = parent
  · rw [hd, h.dir, List.map_append, List.map_singleton, ← List.concat_eq_append]
    exact (hu parent).concat hnew
  · rw [h.other d hd]
    exact hu d

end Hung

section Hang

variable {parent : Ptr} {p c : VfsNode}

/-- Adding a child, also to itself. -/
theorem addChild_room (h0 : parent ≠ 0) (hy0 : y ≠ 0) (hp : s.nodes parent = some p)
    (hc : (setNode s parent (p.push y)).nodes y = some c) :
    addChild parent y s =
      if Room p then
        some (setNode (setNode s parent (p.push y)) y { c with parent := parent }, 0)
      else some (s, -1) := by
  unfold addChild
  rw [if_neg (not_or.mpr ⟨h0, hy0⟩), hp]
  simp only [bind_some]
  by_cases hdir : p.flags &&& VFS_DIRECTORY = 0
  · rw [if_pos hdir, if_neg (fun hr : Room p => hr.1 hdir)]
  · rw [if_neg hdir]
    by_cases hfull : p.numChildren ≥ VFS_MAX_CHILDREN
    · rw [if_pos hfull, if_neg (fun hr : Room p => Nat.not_lt_of_le hfull hr.2)]
    · rw [if_neg hfull, if_pos (show Room p from ⟨hdir, Nat.lt_of_not_le hfull⟩), hc]
      rfl

/-- Replacing a node by one with the same children changes no list. -/
theorem kids_setNode_same (hp : s.nodes parent = some p) (h : c.slots = p.slots) :
    kids (setNode s parent c) = kids s := by
  funext e
  by_cases he : e = parent
  · rw [he, kids_setNode_self, kids_some hp, h]
  · exact kids_setNode_of_ne he

/-- A successful `addChild` in its two steps. The directory may be the node
    itself. -/
theorem hung_of_pushed (h : Inv s) (hy : Loose s y) (hp : s.nodes parent = some p)
    (hroom : Room p) (hc : (setNode s parent (p.push y)).nodes y = some c) :
    Hung s parent y (setNode (setNode s parent (p.push y)) y { c with parent := parent }) := by
  have hy0 := live_ne_zero h hy.live
  have hok := forall_setNode (p := parent) h.nodes
    (nodeOk_push (h.nodes parent p hp) hy0 hroom.2 hroom.1)
  have hcok : NodeOk { c with parent := parent } :=
    ⟨(hok y c hc).bound, (hok y c hc).used, (hok y c hc).dir, (hok y c hc).finds⟩
  generalize ht : setNode (setNode s parent (p.push y)) y { c with parent := parent } = t
  have hkids : kids t = kids (setNode s parent (p.push y)) := by
    rw [← ht]
    exact kids_setNode_same hc rfl
  have hkp : kids t parent = kids s parent ++ [y] := by
    rw [hkids, kids_setNode_self, slots_push, kids_some hp]
  have hko : ∀ e, e ≠ parent → kids t e = kids s e := by
    intro e he
    rw [hkids, kids_setNode_of_ne he]
  have hpar : ∀ e, e ≠ y → parentOf t e = parentOf s e := by
    intro e he
    rw [← ht, parentOf_setNode_of_ne _ _ he]
    exact map_setNode_same VfsNode.parent (m := p.push y) hp rfl e
  have hroot : t.root = s.root := by
    rw [← ht]
    rfl
  have hname : nameAt t = nameAt s := by
    rw [← ht]
    exact (funext (map_setNode_same VfsNode.name (m := { c with parent := parent }) hc rfl)).trans
      (funext (map_setNode_same VfsNode.name (m := p.push y) hp rfl))
  refine ⟨⟨?_, ?_, ?_, fun d a ha => ?_, fun d => ?_⟩, hroot, hname, ⟨p, hp, hroom⟩, hkp, hko⟩
  · rw [← ht]
    exact dead_setNode hc (dead_setNode hp h.null)
  · rw [hroot, hpar s.root hy.root.symm]
    exact h.top
  · rw [← ht]
    exact forall_setNode hok hcok
  · by_cases hay : a = y
    · -- The node is listed at its new place only.
      have hd : d = parent := by
        by_contra hd
        exact hy.unlisted d (hay ▸ hko d hd ▸ ha)
      rw [hd, hay, ← ht, parentOf, nodes_setNode_self]
      rfl
    · rw [hpar a hay]
      by_cases hd : d = parent
      · rw [hd, hkp, List.mem_append, List.mem_singleton] at ha
        exact hd ▸ h.listed parent a (ha.resolve_right hay)
      · exact h.listed d a (hko d hd ▸ ha)
  · by_cases hd : d = parent
    · rw [hd, hkp, ← List.concat_eq_append]
      exact (h.nodup parent).concat (hy.unlisted parent)
    · rw [hko d hd]
      exact h.nodup d

/-- Adding a loose node: the directory takes nothing, or lists it as well. -/
theorem addChild_loose (h : Inv s) (hpar : parent ≠ 0 → Live s parent) (hy : Loose s y) :
    (addChild parent y s = some (s, -1) ∧ ∀ p, s.nodes parent = some p → ¬ Room p) ∨
      ∃ t, addChild parent y s = some (t, 0) ∧ Hung s parent y t := by
  by_cases h0 : parent = 0
  · exact Or.inl ⟨if_pos (Or.inl h0), fun p hp => absurd h0 (ne_of_dead h.null hp)⟩
  rcases hpar h0 with ⟨p, hp⟩
  have hlive : Live (setNode s parent (p.push y)) y := live_setNode hy.live
  rcases hlive with ⟨c, hc⟩
  rw [addChild_room h0 (live_ne_zero h hy.live) hp hc]
  by_cases hroom : Room p
  · rw [if_pos hroom]
    exact Or.inr ⟨_, rfl, hung_of_pushed h hy hp hroom hc⟩
  · rw [if_neg hroom]
    refine Or.inl ⟨rfl, fun p' hp' => ?_⟩
    rw [hp, some.injEq] at hp'
    exact hp' ▸ hroom

end Hang

/-! ### Taking a child out -/

variable {idx : Nat}

theorem mem_kids_slot (hn : s.nodes q = some n) (hidx : idx < n.numChildren)
    (hx : n.children idx = x) : x ∈ kids s q := mem_kids.mpr ⟨n, idx, hn, hidx, hx⟩

/-- `x` is in slot `idx` of the directory `q`. -/
structure Child (s : Vfs) (q x : Ptr) (p : VfsNode) (idx : Nat) : Prop where
  reach : Reaches s q
  dir : s.nodes q = some p
  used : idx < p.numChildren
  slot : p.children idx = x

/-- The child is in the list no longer, and what can be read off other nodes
    is as it was. -/
structure Taken (s : Vfs) (q x : Ptr) (p : VfsNode) (idx : Nat) (t : Vfs) : Prop where
  root : t.root = s.root
  self : t.nodes q = some (p.removeSlot idx)
  other : ∀ e, e ≠ q → e ≠ x → t.nodes e = s.nodes e
  child : ∀ m, t.nodes x = some m → NodeOk m ∧ m.slots = kids s x

section Take

variable {p : VfsNode}

theorem Child.mem (hk : Child s q x p idx) : x ∈ kids s q := mem_kids_slot hk.dir hk.used hk.slot

theorem Child.ne (hk : Child s q x p idx) (h : Inv s) : q ≠ x :=
  fun hqx => not_own_kid h hk.reach (hqx ▸ hk.mem)

theorem Child.root_ne (hk : Child s q x p idx) (h : Inv s) : s.root ≠ x :=
  fun hrx => root_not_kid h q (hrx ▸ hk.mem)

/-- The gap closed at a slot is the child erased. -/
theorem slots_take (h : Inv s) (hk : Child s q x p idx) :
    (p.removeSlot idx).slots = (kids s q).erase x := by
  have hnd := h.nodup q
  rw [kids_some hk.dir] at hnd ⊢
  have hlen : idx < p.slots.length := by
    rw [VfsNode.slots, List.length_map, List.length_range]
    exact hk.used
  have hget : p.slots[idx] = x := by
    simp only [VfsNode.slots, List.getElem_map, List.getElem_range]
    exact hk.slot
  rw [slots_removeSlot p hk.used, ← hget]
  exact (hnd.erase_getElem idx hlen).symm

/-- What is read off a node but for its children is as before. -/
theorem Taken.map (ht : Taken s q x p idx t) (hk : Child s q x p idx) {α : Type}
    (f : VfsNode → α) (hf : f (p.removeSlot idx) = f p) (e : Ptr) (hex : e ≠ x) :
    (t.nodes e).map f = (s.nodes e).map f := by
  by_cases heq : e = q
  · rw [heq, ht.self, hk.dir, map_some, map_some, hf]
  · rw [ht.other e heq hex]

variable (ht : Taken s q x p idx t) (h : Inv s) (hk : Child s q x p idx)

include ht h hk

theorem Taken.dir : kids t q = (kids s q).erase x := by
  rw [kids_some ht.self, slots_take h hk]

theorem Taken.sub (e : Ptr) : (kids t e).Sublist (kids s e) := by
  by_cases heq : e = q
  · rw [heq, ht.dir h hk]
    exact List.erase_sublist
  by_cases hex : e = x
  · rw [hex]
    cases hm : t.nodes x with
    | none =>
      rw [kids_none hm]
      exact List.nil_sublist _
    | some m => rw [kids_some hm, (ht.child m hm).2]
  · rw [kids, ht.other e heq hex, kids]

/-- Nothing but the child is listed less by the other nodes. -/
theorem Taken.kept (hex : e ≠ x) (hcx : c ≠ x) (hc : c ∈ kids s e) : c ∈ kids t e := by
  by_cases heq : e = q
  · rw [heq] at hc
    rw [heq, ht.dir h hk]
    exact (List.mem_erase_of_ne hcx).mpr hc
  · rw [kids, ht.other e heq hex]
    exact hc

theorem Taken.shrunk : Shrunk s x t where
  root := ht.root
  nodes := by
    intro e m he
    by_cases hex : e = x
    · exact (ht.child m (hex ▸ he)).1
    by_cases heq : e = q
    · rw [heq, ht.self, some.injEq] at he
      exact he ▸ nodeOk_removeSlot (h.nodes q p hk.dir) hk.used
    · rw [ht.other e heq hex] at he
      exact h.nodes e m he
  sub := ht.sub h hk
  unlisted := by
    -- The child was in one list only.
    intro e hc
    have hqe := parent_unique h hk.mem ((ht.sub h hk e).subset hc)
    rw [← hqe, ht.dir h hk] at hc
    exact (h.nodup q).not_mem_erase hc
  name := ht.map hk VfsNode.name rfl
  parent := ht.map hk VfsNode.parent rfl

theorem Taken.inv : Inv t :=
  (ht.shrunk h hk).inv h (kid_ne_zero h hk.mem) (hk.root_ne h)

end Take

section Takes

variable {p : VfsNode} (h : Inv s) (hk : Child s q x p idx)

/-- The state after `unlink` has removed a child. -/
def cut (s : Vfs) (q x : Ptr) (p : VfsNode) (idx : Nat) : Vfs :=
  setNode (freeNode s x) q (p.removeSlot idx)

/-- The state after `moveNode` has taken the node out and renamed it. -/
def renamed (s : Vfs) (q x : Ptr) (p n : VfsNode) (idx : Nat) (name : CStr) : Vfs :=
  setNode (setNode s q (p.removeSlot idx)) x { n with name := name }

theorem nodes_renamed {name : CStr} :
    (renamed s q x p n idx name).nodes x = some { n with name := name } :=
  nodes_setNode_self _ _ _

include h hk

theorem nodes_cut : (cut s q x p idx).nodes x = none := by
  rw [cut, nodes_setNode_of_ne (hk.ne h).symm, nodes_freeNode_self]

theorem taken_cut : Taken s q x p idx (cut s q x p idx) where
  root := rfl
  self := nodes_setNode_self _ _ _
  other := fun e heq hex => by rw [cut, nodes_setNode_of_ne heq, nodes_freeNode_of_ne _ hex]
  child := fun m hm => absurd hm (by rw [nodes_cut h hk]; exact (some_ne_none m).symm)

theorem taken_renamed (hn : s.nodes x = some n) (name : CStr) :
    Taken s q x p idx (renamed s q x p n idx name) where
  root := rfl
  self := by rw [renamed, nodes_setNode_of_ne (hk.ne h), nodes_setNode_self]
  other := fun e heq hex => by rw [renamed, nodes_setNode_of_ne hex, nodes_setNode_of_ne heq]
  child := by
    intro m hm
    have hok := h.nodes x n hn
    rw [nodes_renamed, some.injEq] at hm
    rw [← hm, kids_some hn]
    exact ⟨⟨hok.bound, hok.used, hok.dir, hok.finds⟩, rfl⟩

/-- A node that has been taken out and renamed is loose. -/
theorem loose_renamed (hn : s.nodes x = some n) (name : CStr) :
    Loose (renamed s q x p n idx name) x :=
  ⟨(hk.root_ne h).symm, ⟨_, nodes_renamed⟩, ((taken_renamed h hk hn name).shrunk h hk).unlisted⟩

/-- Renaming leaves the children of the node in their place. -/
theorem kept_renamed (hn : s.nodes x = some n) (name : CStr) (hcx : c ≠ x) (hc : c ∈ kids s e) :
    c ∈ kids (renamed s q x p n idx name) e := by
  by_cases hex : e = x
  · rw [hex, kids_some hn] at hc
    rw [hex, kids_some nodes_renamed]
    exact hc
  · exact (taken_renamed h hk hn name).kept h hk hex hcx hc

end Takes

end SysRust.Vfs
