import Mathlib.Data.List.Basic

/-!
# Tilings of a Range

A range of addresses cut into pieces that follow one another without a gap,
as an allocator cuts its memory into blocks. A piece is anything with a first
address and an end; all that is asked of it is that it is not empty, here in
the form that it is at least `w` addresses long.

## Main definitions

* `Tiles`: The pieces fill the range.

## Theorems

* `tiles_append`: Two tilings one behind the other.
* `tiles_bounds`, `tiles_sorted`, `tiles_apart`: Where the pieces lie.
* `tiles_length`: How many there can be.
-/

namespace SysRust.Tiling

section

variable {α : Type} (first stop : α → Nat)

/-- The pieces fill `[lo, hi)` one after the other. -/
def Tiles : Nat → List α → Nat → Prop
  | lo, [], hi => lo = hi
  | lo, b :: bs, hi => first b = lo ∧ Tiles (stop b) bs hi

theorem tiles_append (lo : Nat) (xs ys : List α) (hi : Nat) :
    Tiles first stop lo (xs ++ ys) hi ↔
      ∃ mid, Tiles first stop lo xs mid ∧ Tiles first stop mid ys hi := by
  induction xs generalizing lo with
  | nil => simp only [List.nil_append, Tiles, exists_eq_left']
  | cons b xs ih => simp only [List.cons_append, Tiles, ih, and_assoc, exists_and_left]

end

section

variable {α : Type} {first stop : α → Nat} {w : Nat} (hw : ∀ b, first b + w ≤ stop b)
  {lo hi : Nat} {bs : List α}

include hw

theorem tiles_le (h : Tiles first stop lo bs hi) : lo ≤ hi := by
  induction bs generalizing lo with
  | nil => exact Nat.le_of_eq h
  | cons b bs ih =>
    have hrest := ih h.2
    have haddr := h.1
    have hb := hw b
    omega

/-- A piece of a tiling lies inside its range. -/
theorem tiles_bounds (h : Tiles first stop lo bs hi) : ∀ b ∈ bs, lo ≤ first b ∧ stop b ≤ hi := by
  induction bs generalizing lo with
  | nil =>
    intro b hb
    exact absurd hb List.not_mem_nil
  | cons c bs ih =>
    intro b hb
    have haddr := h.1
    rcases List.mem_cons.mp hb with rfl | hin
    · exact ⟨Nat.le_of_eq haddr.symm, tiles_le hw h.2⟩
    · have hrest := ih h.2 b hin
      have hc := hw c
      exact ⟨by omega, hrest.2⟩

/-- A tiling is in strictly increasing address order. -/
theorem tiles_sorted (hpos : 0 < w) (h : Tiles first stop lo bs hi) :
    bs.Pairwise (fun a b => first a < first b) := by
  induction bs generalizing lo with
  | nil => exact List.Pairwise.nil
  | cons c bs ih =>
    refine List.pairwise_cons.mpr ⟨fun b hb => ?_, ih h.2⟩
    have hlow := (tiles_bounds hw h.2 b hb).1
    have hc := hw c
    omega

/-- Two pieces of a tiling do not overlap. -/
theorem tiles_apart (h : Tiles first stop lo bs hi) {b c : α} (hb : b ∈ bs) (hc : c ∈ bs) :
    b = c ∨ stop b ≤ first c ∨ stop c ≤ first b := by
  induction bs generalizing lo with
  | nil => exact absurd hb List.not_mem_nil
  | cons d ds ih =>
    rcases List.mem_cons.mp hb with rfl | hb'
    · rcases List.mem_cons.mp hc with rfl | hc'
      · exact Or.inl rfl
      · exact Or.inr (Or.inl (tiles_bounds hw h.2 c hc').1)
    · rcases List.mem_cons.mp hc with rfl | hc'
      · exact Or.inr (Or.inr (tiles_bounds hw h.2 b hb').1)
      · exact ih h.2 hb' hc'

/-- Every piece takes at least `w` addresses. -/
theorem tiles_length (h : Tiles first stop lo bs hi) : lo + w * bs.length ≤ hi := by
  induction bs generalizing lo with
  | nil =>
    exact Nat.le_of_eq h
  | cons b bs ih =>
    have hrest := ih h.2
    have haddr := h.1
    have hb := hw b
    rw [List.length_cons, Nat.mul_succ]
    omega

end

end SysRust.Tiling
