import Mathlib.Data.List.Nodup

/-!
# Chains Through a Table

A linked list that lives in a table: every entry names the next one, and a
list ends at the first value that is no link. This is how a file system keeps
the blocks of a file, and how an allocator of slots keeps its free list.

`Seg next c l e` is one stretch of such a list: following `next` from `c`
passes the entries `l` and arrives at `e`. Stretches are cut and joined with
`seg_append`, and survive every change of the table outside of them
(`seg_congr`), which is all that is needed to append an entry at the end.

`Chain` is a stretch that ends. Where a chain ends it is determined by its
start (`chain_unique`), and it cannot meet itself (`chain_nodup`): a second
visit to an entry would have to be followed by the same entries again.

## Main definitions

* `Seg`: The entries passed on the way from one value to another.
* `Chain`: A stretch of links that ends at something else.

## Theorems

* `seg_append`, `seg_congr`, `seg_snoc`: Joining, framing and extending.
* `chain_unique`: A chain is determined by where it starts.
* `chain_nodup`: A chain does not meet itself.
* `chain_suffix`: Every link of a chain starts a chain.
* `chain_congr`: A chain depends only on its own entries.
* `chain_eq_of_perm`: Two chains through the same entries are the same.
* `chain_next_eq`: A chain determines the table on its entries, but for the
  last one.
-/

namespace SysRust

open List

variable {α : Type}

/-- Following `next` from `c` passes the entries `l` and arrives at `e`. -/
def Seg (next : α → α) : α → List α → α → Prop
  | c, [], e => c = e
  | c, x :: l, e => x = c ∧ Seg next (next c) l e

/-- Following `next` from `c` passes the links `l` and then ends. -/
def Chain (isLink : α → Prop) (next : α → α) : α → List α → Prop
  | c, [] => ¬ isLink c
  | c, x :: l => isLink c ∧ x = c ∧ Chain isLink next (next c) l

theorem seg_append (next : α → α) (c : α) (xs ys : List α) (e : α) :
    Seg next c (xs ++ ys) e ↔ ∃ m, Seg next c xs m ∧ Seg next m ys e := by
  induction xs generalizing c with
  | nil => simp only [nil_append, Seg, exists_eq_left']
  | cons x xs ih => simp only [cons_append, Seg, ih, and_assoc, exists_and_left]

/-- A stretch depends only on its own entries. -/
theorem seg_congr {next next' : α → α} {c e : α} {l : List α}
    (h : ∀ x ∈ l, next x = next' x) (hs : Seg next c l e) : Seg next' c l e := by
  induction l generalizing c with
  | nil => exact hs
  | cons x l ih =>
    rcases hs with ⟨rfl, hrest⟩
    rw [h x mem_cons_self] at hrest
    exact ⟨rfl, ih (fun y hy => h y (mem_cons_of_mem _ hy)) hrest⟩

/-- Redirecting the last entry makes the stretch longer. -/
theorem seg_snoc {next next' : α → α} {c p : α} {l : List α} (hs : Seg next c l p)
    (hl : ∀ x ∈ l, next x = next' x) : Seg next' c (l ++ [p]) (next' p) :=
  (seg_append _ _ _ _ _).mpr ⟨p, seg_congr hl hs, rfl, rfl⟩

/-- A stretch of links that arrives at something else is a chain. -/
theorem chain_of_seg {isLink : α → Prop} {next : α → α} {c e : α} {l : List α}
    (hs : Seg next c l e) (hl : ∀ x ∈ l, isLink x) (he : ¬ isLink e) :
    Chain isLink next c l := by
  induction l generalizing c with
  | nil => exact fun hc => he (hs ▸ hc)
  | cons x l ih =>
    rcases hs with ⟨rfl, hrest⟩
    exact ⟨hl x mem_cons_self, rfl, ih hrest (fun y hy => hl y (mem_cons_of_mem _ hy))⟩

variable {isLink : α → Prop} {next : α → α}

theorem chain_links {c : α} {l : List α} (h : Chain isLink next c l) : ∀ x ∈ l, isLink x := by
  induction l generalizing c with
  | nil => exact forall_mem_nil _
  | cons y l ih =>
    rcases h with ⟨hlink, rfl, hrest⟩
    intro x hx
    rcases mem_cons.mp hx with rfl | hx
    · exact hlink
    · exact ih hrest x hx

/-- A chain is determined by where it starts. -/
theorem chain_unique {c : α} {l l' : List α} (h : Chain isLink next c l)
    (h' : Chain isLink next c l') : l = l' := by
  induction l generalizing c l' with
  | nil =>
    cases l' with
    | nil => rfl
    | cons x l' => exact absurd h'.1 h
  | cons x l ih =>
    cases l' with
    | nil => exact absurd h.1 h'
    | cons y l' => rw [h.2.1, h'.2.1, ih h.2.2 h'.2.2]

/-- Every link of a chain starts a chain, of the links behind it. -/
theorem chain_suffix {c x : α} {xs ys : List α} (h : Chain isLink next c (xs ++ x :: ys)) :
    Chain isLink next x (x :: ys) := by
  induction xs generalizing c with
  | nil =>
    rcases h with ⟨hlink, rfl, hrest⟩
    exact ⟨hlink, rfl, hrest⟩
  | cons y xs ih => exact ih h.2.2

/-- A chain does not meet itself. -/
theorem chain_nodup {c : α} {l : List α} (h : Chain isLink next c l) : l.Nodup := by
  induction l generalizing c with
  | nil => exact nodup_nil
  | cons x l ih =>
    rw [nodup_cons]
    refine ⟨fun hx => ?_, ih h.2.2⟩
    -- Were `x` met again, the two chains from it would differ in length.
    rcases append_of_mem hx with ⟨xs, ys, hl⟩
    have hc : x = c := h.2.1
    have hagain : Chain isLink next c (x :: ys) := by
      have hrest := h.2.2
      rw [hl] at hrest
      rw [← hc]
      exact chain_suffix hrest
    have heq := chain_unique h hagain
    rw [List.cons.injEq] at heq
    have hlen := congrArg List.length (heq.2.symm.trans hl)
    simp only [length_append, length_cons] at hlen
    omega

/-- A chain depends only on its own entries. -/
theorem chain_congr {next' : α → α} {c : α} {l : List α} (hn : ∀ x ∈ l, next x = next' x)
    (h : Chain isLink next c l) : Chain isLink next' c l := by
  induction l generalizing c with
  | nil => exact h
  | cons x l ih =>
    rcases h with ⟨hlink, rfl, hrest⟩
    rw [hn x mem_cons_self] at hrest
    exact ⟨hlink, rfl, ih (fun y hy => hn y (mem_cons_of_mem _ hy)) hrest⟩

/-- Two chains through the same entries of a table are the same. -/
theorem chain_eq_of_perm {c d : α} {l l' : List α} (h : Chain isLink next c l)
    (h' : Chain isLink next d l') (hp : List.Perm l' l) : l' = l := by
  cases l with
  | nil => exact hp.eq_nil
  | cons x l =>
    -- The start of the one chain is somewhere in the other, which goes on
    -- from there in the same way.
    rcases append_of_mem (hp.mem_iff.mpr mem_cons_self) with ⟨xs, ys, hl⟩
    rw [hl] at h'
    have hsame := chain_unique (h.2.1 ▸ h : Chain isLink next x (x :: l)) (chain_suffix h')
    have hlen := hp.length_eq
    rw [hl, hsame, length_append] at hlen
    have hxs : xs = [] := length_eq_zero_iff.mp (by omega)
    rw [hl, hxs, hsame, nil_append]

/-- A chain determines the table on its entries, but for the last one. -/
theorem chain_next_eq {next' : α → α} {c d : α} {l : List α} (h : Chain isLink next c l)
    (h' : Chain isLink next' d l) (hlast : ∀ x, l.getLast? = some x → next x = next' x) :
    ∀ x ∈ l, next x = next' x := by
  induction l generalizing c d with
  | nil => exact forall_mem_nil _
  | cons y l ih =>
    rcases h with ⟨_, rfl, hrest⟩
    rcases h' with ⟨_, rfl, hrest'⟩
    intro x hx
    cases l with
    | nil =>
      rw [mem_singleton.mp hx]
      exact hlast y rfl
    | cons z l =>
      rcases mem_cons.mp hx with rfl | hx
      · exact hrest.2.1.symm.trans hrest'.2.1
      · refine ih hrest hrest' (fun w hw => hlast w ?_) x hx
        exact hw

end SysRust
