import SysRust.Theory.Rt.Blocks

/-!
# The Headers of the User Heap

The functions of `BrkAllocator` compared with the operations on the block
list. `Listed` says that the headers, read from a pointer on, are those of
the blocks; every function of the code that follows `next` pointers is a
walk along such a list.

A write to a header is a write at one address. The blocks of a tiling have
different addresses, so it is seen by one block only; a header that is split
off lies strictly inside the block it is taken from, so it is seen by none.

## Main definitions

* `Listed`: The headers from one pointer to another are those of the blocks.

## Theorems

* `listed_append`, `listed_congr`: Taking a list apart, and writes elsewhere.
* `findFreeBlock_spec`: The search.
* `splitBlock_listed`: Taking a request out of a block.
* `lastBlock_spec`, `appendBlock_listed`: Growing.
* `coalesce_listed`, `findOwner_spec`, `coalescePrev_listed`: Freeing.
-/

namespace SysRust.BrkAllocator

open Function List

/-- The headers from `p` on are those of the blocks, and the last one points
    to `q`. -/
def Listed (h : Nat → BlockHeader) : Nat → List Block → Nat → Prop
  | p, [], q => p = q
  | p, b :: bs, q =>
    p = b.addr ∧ p ≠ 0 ∧ (h p).size = b.size ∧ (h p).isFree = b.free ∧ Listed h (h p).next bs q

theorem listed_append (h : Nat → BlockHeader) (p : Nat) (xs ys : List Block) (q : Nat) :
    Listed h p (xs ++ ys) q ↔ ∃ r, Listed h p xs r ∧ Listed h r ys q := by
  induction xs generalizing p with
  | nil => simp only [nil_append, Listed, exists_eq_left']
  | cons b xs ih => simp only [cons_append, Listed, ih, and_assoc, exists_and_left]

variable {bs post pre : List Block} {f p hi lo : Nat} {l b : Block} {h : Nat → BlockHeader}

/-- Only the headers of the blocks matter. -/
theorem listed_congr {h' : Nat → BlockHeader} {q : Nat} (heq : ∀ b ∈ bs, h' b.addr = h b.addr)
    (hl : Listed h p bs q) : Listed h' p bs q := by
  induction bs generalizing p with
  | nil => exact hl
  | cons b bs ih =>
    obtain ⟨rfl, h0, hsize, hfree, hrest⟩ := hl
    have hb := heq b mem_cons_self
    refine ⟨rfl, h0, hb ▸ hsize, hb ▸ hfree, ?_⟩
    rw [hb]
    exact ih (fun c hc => heq c (mem_cons_of_mem b hc)) hrest

/-- The list in front of a block, its header, and the list behind it. -/
theorem listed_middle :
    Listed h p (pre ++ b :: post) 0 ↔
      Listed h p pre b.addr ∧ b.addr ≠ 0 ∧ (h b.addr).size = b.size ∧
        (h b.addr).isFree = b.free ∧ Listed h (h b.addr).next post 0 := by
  rw [listed_append]
  constructor
  · rintro ⟨r, hpre, rfl, hrest⟩
    exact ⟨hpre, hrest⟩
  · rintro ⟨hpre, hrest⟩
    exact ⟨b.addr, hpre, rfl, hrest⟩

/-- A pointer to no block is null. -/
theorem listed_null (hl : Listed h p bs 0) : p = 0 ↔ bs = [] := by
  cases bs with
  | nil => exact ⟨fun _ => rfl, fun _ => hl⟩
  | cons b bs =>
    refine ⟨fun h0 => absurd h0 hl.2.1, fun hnil => ?_⟩
    exact absurd hnil (cons_ne_nil b bs)

/-! ### Writing headers -/

/-- Writing all three fields. -/
theorem set_fields (h : Nat → BlockHeader) (p size : Nat) (free : Bool) (next : Nat) :
    setNext (setIsFree (setSize h p size) p free) p next =
      Function.update h p { size := size, isFree := free, next := next } := by
  simp only [setNext, setIsFree, setSize, update_self, update_idem]

/-- Writing size and pointer. -/
theorem set_size_next (h : Nat → BlockHeader) (p size next : Nat) :
    setNext (setSize h p size) p next =
      Function.update h p { size := size, isFree := (h p).isFree, next := next } := by
  simp only [setNext, setSize, update_self, update_idem]

section Write

/-- The blocks of a tiling have different addresses. -/
theorem tiles_addr_ne (ht : Tiles lo (pre ++ b :: post) hi) :
    (∀ c ∈ pre, c.addr ≠ b.addr) ∧ ∀ c ∈ post, c.addr ≠ b.addr := by
  have hsorted := Tiling.tiles_sorted Block.header_le (by decide) ht
  obtain ⟨_, hcons, hcross⟩ := pairwise_append.mp hsorted
  refine ⟨fun c hc => Nat.ne_of_lt (hcross c hc b mem_cons_self), fun c hc => ?_⟩
  exact Nat.ne_of_gt ((pairwise_cons.mp hcons).1 c hc)

/-- Writing a header: the block at its address is what was written, the list
    before it is as it was, and behind it comes what the header points to. -/
theorem listed_write {a : Nat} {x : BlockHeader} (hpre : Listed h p pre a) (h0 : a ≠ 0)
    (hpost : Listed h x.next post 0) (hbefore : ∀ c ∈ pre, c.addr ≠ a)
    (hbehind : ∀ c ∈ post, c.addr ≠ a) :
    Listed (Function.update h a x) p
      (pre ++ { addr := a, size := x.size, free := x.isFree } :: post) 0 := by
  have hself : Function.update h a x a = x := update_self ..
  refine listed_middle.mpr ⟨?_, h0, congrArg _ hself, congrArg _ hself, ?_⟩
  · exact listed_congr (fun c hc => update_of_ne (hbefore c hc) x h) hpre
  · rw [hself]
    exact listed_congr (fun c hc => update_of_ne (hbehind c hc) x h) hpost

/-- Changing the flag of a block. -/
theorem setIsFree_listed (hl : Listed h p (pre ++ b :: post) 0)
    (ht : Tiles lo (pre ++ b :: post) hi) (v : Bool) :
    Listed (setIsFree h b.addr v) p (pre ++ { b with free := v } :: post) 0 := by
  obtain ⟨hpre, h0, hsize, _, hpost⟩ := listed_middle.mp hl
  obtain ⟨hbefore, hbehind⟩ := tiles_addr_ne ht
  rw [← hsize]
  exact listed_write (x := { h b.addr with isFree := v }) hpre h0 hpost hbefore hbehind

end Write

/-! ### Allocating -/

/-- The search finds the first free block with room, or none. -/
theorem findFreeBlock_spec {size align : Nat} (hr : Request size align) (hl : Listed h p bs 0)
    (hbound : ∀ b ∈ bs, b.addr ≤ USER_END) (hf : bs.length < f) :
    (∃ pre b post, bs = pre ++ b :: post ∧ b.free = true ∧ Room size align b ∧
      findFreeBlock h size align f p = some b.addr) ∨
    ((∀ b ∈ bs, b.free = true → ¬ Room size align b) ∧
      findFreeBlock h size align f p = some 0) := by
  induction bs generalizing f p with
  | nil =>
    obtain ⟨f, rfl⟩ : ∃ g, f = g + 1 := ⟨f - 1, by omega⟩
    refine Or.inr ⟨forall_mem_nil _, ?_⟩
    rw [findFreeBlock, if_pos (show p = 0 from hl)]
  | cons b bs ih =>
    obtain ⟨f, rfl⟩ : ∃ g, f = g + 1 := ⟨f - 1, by omega⟩
    obtain ⟨rfl, h0, hsize, hfree, hrest⟩ := hl
    have hroom := room_iff hr (hbound b mem_cons_self)
    rw [findFreeBlock, if_neg h0, hsize, hfree]
    by_cases hfit : b.free = true ∧ b.size ≥ needed b.addr size align
    · rw [if_pos hfit]
      exact Or.inl ⟨[], b, bs, rfl, hfit.1, hroom.mp hfit.2, rfl⟩
    · rw [if_neg hfit]
      have hnext := ih hrest (fun c hc => hbound c (mem_cons_of_mem b hc))
        (Nat.lt_of_succ_lt_succ hf)
      rcases hnext with ⟨pre, c, post, rfl, hc⟩ | ⟨hnone, hfind⟩
      · exact Or.inl ⟨b :: pre, c, post, rfl, hc⟩
      · refine Or.inr ⟨fun c hc => ?_, hfind⟩
        rcases mem_cons.mp hc with rfl | hin
        · exact fun hcf hcr => hfit ⟨hcf, hroom.mpr hcr⟩
        · exact hnone c hin

section Change

/-- Splitting a block and marking it carves the request out of it. -/
theorem splitBlock_listed (hl : Listed h p (pre ++ b :: post) 0)
    (ht : Tiles lo (pre ++ b :: post) hi) (hhi : hi ≤ USER_END) {n : Nat} (hn : n ≤ b.size) :
    Listed (setIsFree (splitBlock h b.addr n) b.addr false) p (pre ++ (carve n b ++ post)) 0 := by
  obtain ⟨hpre, h0, hsize, hfree, hpost⟩ := listed_middle.mp hl
  obtain ⟨_, _, hstop, _⟩ := tiles_around ht
  have hend : b.addr + 24 + b.size ≤ 2 ^ 47 := Nat.le_trans hstop hhi
  have hrem : wrappingSub64 (h b.addr).size n = b.size - n := by
    rw [hsize]
    exact wrappingSub64_of_le hn (by omega)
  by_cases hsplit : HEADER_SIZE + MIN_USABLE ≤ b.size - n
  · have h40 : 40 ≤ b.size - n := hsplit
    have hnew : u64 (b.addr + HEADER_SIZE + n) = b.addr + 24 + n := u64_of_lt (by
      omega)
    have hleft : wrappingSub64 (b.size - n) HEADER_SIZE = b.size - n - 24 :=
      wrappingSub64_of_le (by simp only [HEADER_SIZE]; omega) (by omega)
    have hne : b.addr ≠ b.addr + 24 + n := by omega
    -- The header that is split off is written first, then that of the block.
    let x : BlockHeader := { size := b.size - n - 24, isFree := true, next := (h b.addr).next }
    let y : BlockHeader := { size := n, isFree := false, next := b.addr + 24 + n }
    have hwritten : setIsFree (splitBlock h b.addr n) b.addr false =
        Function.update (Function.update h (b.addr + 24 + n) x) b.addr y := by
      have hnext : (setIsFree (setSize h (b.addr + 24 + n) (b.size - n - 24)) (b.addr + 24 + n)
          true b.addr).next = (h b.addr).next := by
        simp only [setIsFree, setSize, update_of_ne hne]
      simp only [splitBlock, hrem, hnew, hleft]
      rw [if_pos hsplit, hnext, set_fields, set_size_next, setIsFree, update_self,
        update_idem]
    have hinside : ∀ c ∈ pre ++ post, c.addr ≠ b.addr + 24 + n := by
      obtain ⟨hbefore, hbehind, _, _⟩ := tiles_around ht
      intro c hc
      rcases mem_append.mp hc with hin | hin
      · have hc1 := hbefore c hin
        have hc2 := c.header_le
        omega
      · have hc1 := hbehind c hin
        simp only [Block.stop, HEADER_SIZE] at hc1
        omega
    have hrest : Listed (Function.update h (b.addr + 24 + n) x) (b.addr + 24 + n)
        ([] ++ { addr := b.addr + 24 + n, size := b.size - n - 24, free := true } :: post) 0 :=
      listed_write (x := x) rfl (by omega) hpost (forall_mem_nil _)
        (fun c hc => hinside c (mem_append_right pre hc))
    have hfront : Listed (Function.update h (b.addr + 24 + n) x) p pre b.addr :=
      listed_congr
        (fun c hc => update_of_ne (hinside c (mem_append_left post hc)) _ _) hpre
    obtain ⟨hbefore, hbehind⟩ := tiles_addr_ne ht
    rw [hwritten, carve, if_pos hsplit]
    refine listed_write (x := y) hfront h0 hrest hbefore (fun c hc => ?_)
    rcases mem_cons.mp hc with rfl | hin
    · exact Ne.symm hne
    · exact hbehind c hin
  · have hblock : splitBlock h b.addr n = h := by
      simp only [splitBlock, hrem]
      rw [if_neg hsplit]
    rw [hblock, carve, if_neg hsplit]
    exact setIsFree_listed hl ht false

end Change

/-! ### Growing -/

theorem lastBlock_spec (hl : Listed h p (pre ++ [l]) 0) (hf : pre.length < f) :
    lastBlock h f p = some l.addr := by
  induction pre generalizing f p with
  | nil =>
    obtain ⟨f, rfl⟩ : ∃ g, f = g + 1 := ⟨f - 1, by omega⟩
    obtain ⟨rfl, _, _, _, hrest⟩ := hl
    rw [lastBlock, if_pos (show (h l.addr).next = 0 from hrest)]
  | cons b pre ih =>
    obtain ⟨f, rfl⟩ : ∃ g, f = g + 1 := ⟨f - 1, by omega⟩
    obtain ⟨_, _, _, _, hrest⟩ := hl
    have hmore : (h p).next ≠ 0 := fun h0 => absurd ((listed_null hrest).mp h0) (by simp)
    rw [lastBlock, if_neg hmore]
    exact ih hrest (Nat.lt_of_succ_lt_succ hf)

/-- Putting a block of `total` bytes behind the last one. -/
theorem appendBlock_listed {total : Nat} (hl : Listed h p (pre ++ [l]) 0)
    (ht : Tiles lo (pre ++ [l]) hi) (hhi : hi + total ≤ USER_END) (htotal : HEADER_SIZE ≤ total)
    (hnew : h hi = { size := total - HEADER_SIZE, isFree := true, next := 0 }) :
    (appendBlock h l.addr hi).2 = (extend pre l total).2.addr ∧
      Listed (appendBlock h l.addr hi).1 p
        ((extend pre l total).1 ++ [(extend pre l total).2]) 0 := by
  obtain ⟨hpre, h0, hsize, hfree, _⟩ := listed_middle.mp hl
  obtain ⟨hbefore, _⟩ := tiles_addr_ne ht
  have hstop : l.stop = hi := (tiles_middle ht).2
  have hend : hi = l.addr + 24 + l.size := hstop.symm
  have hbound : hi + total ≤ 2 ^ 47 := hhi
  have h24 : 24 ≤ total := htotal
  have hne : hi ≠ l.addr := by omega
  -- The last header, after the pointer to the new block is set, and the new
  -- one.
  have hself : setNext h l.addr hi l.addr = ⟨l.size, l.free, hi⟩ := by
    rw [setNext, update_self]
    simp only [hsize, hfree]
  have hother : setNext h l.addr hi hi = h hi := update_of_ne hne _ _
  have hadj : u64 (l.addr + HEADER_SIZE + l.size) = hi := by
    rw [← hstop]
    exact u64_of_lt (by simp only [HEADER_SIZE]; omega)
  by_cases hlf : l.free = true
  · have hsum : u64 (l.size + HEADER_SIZE + (total - HEADER_SIZE)) = l.size + total := by
      simp only [HEADER_SIZE]
      rw [show l.size + 24 + (total - 24) = l.size + total by omega]
      exact u64_of_lt (by omega)
    have hresult : appendBlock h l.addr hi =
        (Function.update h l.addr ⟨l.size + total, l.free, 0⟩, l.addr) := by
      simp only [appendBlock, hself, hother, hnew, hsum]
      rw [if_pos ⟨hadj, hlf⟩, set_size_next]
      simp only [hself, setSize, update_of_ne hne, hother, hnew]
      rw [setNext, update_idem]
    rw [hresult, extend, if_pos hlf]
    refine ⟨rfl, ?_⟩
    exact listed_write (x := ⟨l.size + total, l.free, 0⟩) hpre h0 rfl hbefore
      (forall_mem_nil _)
  · have hresult : appendBlock h l.addr hi = (setNext h l.addr hi, hi) := by
      simp only [appendBlock, hself]
      rw [if_neg (fun hc => hlf hc.2)]
    have hrest : Listed h hi [⟨hi, total - HEADER_SIZE, true⟩] 0 := by
      refine ⟨rfl, by omega, ?_, ?_, ?_⟩ <;> rw [hnew]
      rfl
    rw [hresult, extend, if_neg hlf, hstop, append_assoc, singleton_append]
    refine ⟨rfl, ?_⟩
    have hset : setNext h l.addr hi = Function.update h l.addr ⟨l.size, l.free, hi⟩ := by
      rw [← hself, setNext, update_self]
    rw [hset]
    exact listed_write (x := ⟨l.size, l.free, hi⟩) hpre h0 hrest hbefore
      (fun c hc => mem_singleton.mp hc ▸ hne)

/-! ### Freeing -/

/-- Merging with the next block. -/
theorem coalesce_listed (hl : Listed h p (pre ++ b :: post) 0) (ht : Tiles lo (pre ++ b :: post) hi)
    (hhi : hi ≤ USER_END) : Listed (coalesce h b.addr) p (pre ++ absorbNext b post) 0 := by
  obtain ⟨hpre, h0, hsize, hfree, hpost⟩ := listed_middle.mp hl
  cases post with
  | nil =>
    have hsame : coalesce h b.addr = h := by
      rw [coalesce, if_pos (Or.inl (show (h b.addr).next = 0 from hpost))]
    rw [hsame]
    exact hl
  | cons c post =>
    obtain ⟨hnext, hc0, hcsize, hcfree, hrest⟩ := hpost
    rw [hnext] at hcsize hcfree hrest
    by_cases hcf : c.free = true
    · have hend : b.stop = c.addr := (tiles_middle ht).2.1.symm
      have hcstop : c.stop ≤ hi := (tiles_around (append_cons pre b (c :: post) ▸ ht)).2.2.1
      have hend' : b.addr + 24 + b.size = c.addr := hend
      have hbound : c.addr + 24 + c.size ≤ 2 ^ 47 := Nat.le_trans hcstop hhi
      have hgo : ¬ ((h b.addr).next = 0 ∨ (h (h b.addr).next).isFree = false) := by
        rintro (hz | hz)
        · exact hc0 hz
        · rw [hnext, hcfree, hcf] at hz
          exact absurd hz (by decide)
      have hadj : u64 (b.addr + HEADER_SIZE + (h b.addr).size) = (h b.addr).next := by
        rw [hsize, hnext, ← hend]
        exact u64_of_lt (by simp only [HEADER_SIZE]; omega)
      have hsum : u64 ((h b.addr).size + HEADER_SIZE + (h (h b.addr).next).size) =
          (join b c).size := by
        rw [hsize, hnext, hcsize]
        exact u64_of_lt (by simp only [HEADER_SIZE]; omega)
      have hne : c.addr ≠ b.addr := by omega
      have hresult : coalesce h b.addr = Function.update h b.addr
          { size := (join b c).size, isFree := (h b.addr).isFree, next := (h c.addr).next } := by
        rw [coalesce, if_neg hgo, if_pos hadj, hsum, set_size_next]
        simp only [setSize, hnext, update_of_ne hne]
      obtain ⟨hbefore, hbehind⟩ := tiles_addr_ne ht
      rw [hresult, absorbNext, if_pos hcf, hfree]
      exact listed_write (x := ⟨(join b c).size, b.free, (h c.addr).next⟩) hpre h0 hrest hbefore
        (fun d hd => hbehind d (mem_cons_of_mem c hd))
    · have hstay : (h b.addr).next = 0 ∨ (h (h b.addr).next).isFree = false := by
        rw [hnext, hcfree]
        exact Or.inr (Bool.not_eq_true _ ▸ hcf)
      rw [coalesce, if_pos hstay, absorbNext, if_neg hcf]
      exact hl

/-- The walk to the block that contains a pointer. -/
theorem findOwner_spec {ptr : Nat} (hl : Listed h p (pre ++ b :: post) 0)
    (ht : Tiles lo (pre ++ b :: post) hi) (hhi : hi ≤ USER_END) (h1 : b.addr + HEADER_SIZE ≤ ptr)
    (h2 : ptr < b.stop) (hf : (pre ++ b :: post).length < f) :
    findOwner h ptr f p = some b.addr := by
  induction pre generalizing f p lo with
  | nil =>
    obtain ⟨f, rfl⟩ : ∃ g, f = g + 1 := ⟨f - 1, by omega⟩
    obtain ⟨rfl, h0, hsize, _, _⟩ := hl
    have hend : b.addr + 24 + b.size ≤ 2 ^ 47 := Nat.le_trans (tiles_around ht).2.2.1 hhi
    have hin : ptr ≥ u64 (b.addr + HEADER_SIZE) ∧
        ptr < u64 (b.addr + HEADER_SIZE + (h b.addr).size) := by
      rw [hsize, u64_of_lt (by simp only [HEADER_SIZE]; omega),
        u64_of_lt (by simp only [HEADER_SIZE]; omega)]
      exact ⟨h1, h2⟩
    rw [findOwner, if_neg h0, if_pos hin]
  | cons c pre ih =>
    obtain ⟨f, rfl⟩ : ∃ g, f = g + 1 := ⟨f - 1, by omega⟩
    have hcb : c.stop ≤ b.addr := (tiles_around ht).1 c mem_cons_self
    have hbhi := (tiles_around ht).2.2.1
    obtain ⟨rfl, h0, hsize, _, hrest⟩ := hl
    have hout : ¬ (ptr ≥ u64 (c.addr + HEADER_SIZE) ∧
        ptr < u64 (c.addr + HEADER_SIZE + (h c.addr).size)) := by
      have hbelow : b.addr < 2 ^ 64 := by
        simp only [Block.stop, USER_END] at hbhi hhi
        omega
      rw [hsize, u64_of_lt (show c.addr + HEADER_SIZE + c.size < 2 ^ 64 from
        Nat.lt_of_le_of_lt hcb hbelow)]
      intro hc
      have hlt : ptr < c.stop := hc.2
      omega
    rw [findOwner, if_neg h0, if_neg hout]
    exact ih hrest ht.2 (Nat.lt_of_succ_lt_succ hf)

/-- A walk along blocks none of which points to `cur`. -/
theorem coalescePrev_past {cur : Nat} {x : Block} {xs : List Block} (hl : Listed h p (x :: xs) 0)
    (hne : ∀ c ∈ xs, c.addr ≠ cur) (hcur : cur ≠ 0) (hf : (x :: xs).length < f) :
    coalescePrev h cur f p = some h := by
  induction xs generalizing f p x with
  | nil =>
    obtain ⟨f, rfl⟩ : ∃ g, f = g + 1 + 1 := ⟨f - 2, by
      simp only [length_singleton] at hf
      omega⟩
    obtain ⟨_, h0, _, _, hlast⟩ := hl
    have hnext : (h p).next = 0 := hlast
    have hmiss : ¬ (h p).next = cur := fun hc => hcur (hc ▸ hnext)
    rw [coalescePrev, if_neg h0, if_neg (fun hc => hmiss hc.2), if_neg hmiss, coalescePrev,
      if_pos hnext]
  | cons y ys ih =>
    obtain ⟨f, rfl⟩ : ∃ g, f = g + 1 := ⟨f - 1, by omega⟩
    obtain ⟨_, h0, _, _, hrest⟩ := hl
    have hmiss : ¬ (h p).next = cur := by
      rw [hrest.1]
      exact hne y mem_cons_self
    rw [coalescePrev, if_neg h0, if_neg (fun hc => hmiss hc.2), if_neg hmiss]
    exact ih hrest (fun c hc => hne c (mem_cons_of_mem y hc))
      (Nat.lt_of_succ_lt_succ hf)

/-- The walk to the block before `b` stops there. -/
theorem coalescePrev_reach (hl : Listed h p (pre ++ l :: b :: post) 0)
    (ht : Tiles lo (pre ++ l :: b :: post) hi) (hf : (pre ++ l :: b :: post).length < f) :
    coalescePrev h b.addr f p = some (if l.free = true then coalesce h l.addr else h) := by
  induction pre generalizing f p lo with
  | nil =>
    obtain ⟨f, rfl⟩ : ∃ g, f = g + 1 := ⟨f - 1, by omega⟩
    obtain ⟨rfl, h0, _, hfree, hrest⟩ := hl
    have hhit : (h l.addr).next = b.addr := hrest.1
    rw [coalescePrev, if_neg h0, hfree]
    by_cases hlf : l.free = true
    · rw [if_pos ⟨hlf, hhit⟩, if_pos hlf]
    · rw [if_neg (fun hc => hlf hc.1), if_pos hhit, if_neg hlf]
  | cons c pre ih =>
    obtain ⟨f, rfl⟩ : ∃ g, f = g + 1 := ⟨f - 1, by omega⟩
    obtain ⟨_, h0, _, _, hrest⟩ := hl
    -- The next block is before `b`.
    have hmiss : ¬ (h p).next = b.addr := by
      have hrange : Tiles c.stop (pre ++ l :: b :: post) hi := ht.2
      have hassoc : pre ++ l :: b :: post = (pre ++ [l]) ++ (b :: post) := by
        rw [append_assoc, singleton_append]
      rw [hassoc] at hrange
      have hbefore := (tiles_addr_ne hrange).1
      cases pre with
      | nil =>
        rw [hrest.1]
        exact hbefore l (mem_singleton.mpr rfl)
      | cons d pre =>
        rw [hrest.1]
        exact hbefore d mem_cons_self
    rw [coalescePrev, if_neg h0, if_neg (fun hc => hmiss hc.2), if_neg hmiss]
    exact ih hrest ht.2 (Nat.lt_of_succ_lt_succ hf)

/-- Merging with the block before. -/
theorem coalescePrev_listed (hl : Listed h p (pre ++ b :: post) 0)
    (ht : Tiles lo (pre ++ b :: post) hi) (hhi : hi ≤ USER_END) (hb : b.free = true)
    (hf : (pre ++ b :: post).length < f) :
    ∃ h', coalescePrev h b.addr f p = some h' ∧ Listed h' p (absorbPrev pre b ++ post) 0 := by
  rcases eq_nil_or_concat pre with rfl | ⟨pre', l, rfl⟩
  · refine ⟨h, ?_, hl⟩
    have hbehind := (tiles_around ht).2.1
    refine coalescePrev_past hl (fun c hc => ?_) (hl.1 ▸ hl.2.1) hf
    have hle := b.header_le
    have hcb := hbehind c hc
    simp only [HEADER_SIZE] at hle
    omega
  · rw [concat_eq_append] at *
    rw [append_assoc, singleton_append] at hl ht hf
    refine ⟨_, coalescePrev_reach hl ht hf, ?_⟩
    rw [absorbPrev_concat]
    by_cases hlf : l.free = true
    · rw [if_pos hlf, if_pos hlf, append_assoc, singleton_append]
      have hmerged := coalesce_listed hl ht hhi
      rw [absorbNext, if_pos hb] at hmerged
      exact hmerged
    · rw [if_neg hlf, if_neg hlf, append_assoc, append_assoc, singleton_append,
        singleton_append]
      exact hl

end SysRust.BrkAllocator
