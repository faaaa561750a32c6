import Mathlib.Data.List.TakeWhile
import SysRust.Theory.Fat16.Sectors

/-!
# Names as They Are Shown

A directory entry has a name of eleven bytes, eight for the base and three
for the extension, each filled up with spaces. `name_from_83` turns it into
the name that is shown, and `name_to_83` is how a shown name is looked up.

The way out drops every space and the way back puts spaces at the end, so
the two meet exactly if the spaces of both fields stand at the end to begin
with. A space in front of another character moves, and an extension that
starts with one is not shown at all.

## Main definitions

* `PlainByte`: The bytes that both conversions leave alone.
* `SpacesLast`: No space stands in front of another character.

## Theorems

* `padTo_filter`: Dropping the spaces and filling up again.
* `nameTo83_nameFrom83`: Both conversions, one behind the other.
* `shown_name_found_iff`: Which names are found again under the name shown.
-/

namespace SysRust.Fat16

open List

/-- No dot, no terminator and no lower case letter. -/
def PlainByte (c : UInt8) : Prop := c ≠ DOT ∧ c ≠ 0 ∧ ¬ (0x61 ≤ c ∧ c ≤ 0x7A)

/-- The spaces of a field stand at its end. -/
def SpacesLast (l : List UInt8) : Prop := l.Pairwise (fun a b => a = SPACE → b = SPACE)

instance (l : List UInt8) : Decidable (SpacesLast l) :=
  inferInstanceAs (Decidable (l.Pairwise _))

theorem map_toUpper_plain {l : List UInt8} (h : ∀ c ∈ l, PlainByte c) : l.map toUpper = l :=
  (map_congr_left (fun c hc => if_neg (h c hc).2.2)).trans (map_id l)

/-! ### One field -/

theorem padTo_cons (n : Nat) (a : UInt8) (l : List UInt8) :
    padTo (n + 1) (a :: l) = a :: padTo n l := by
  simp only [padTo, length_cons, cons_append, Nat.add_sub_add_right]

/-- Dropping the spaces of a field and filling it up again changes nothing
    exactly if they stood at the end. -/
theorem padTo_filter (l : List UInt8) :
    padTo l.length (l.filter (fun c => c != SPACE)) = l ↔ SpacesLast l := by
  induction l with
  | nil => exact ⟨fun _ => List.Pairwise.nil, fun _ => rfl⟩
  | cons a l ih =>
    rw [SpacesLast, pairwise_cons, length_cons]
    by_cases ha : a = SPACE
    · rw [filter_cons_of_neg (by simp [ha])]
      -- What comes behind the space has to be spaces only.
      constructor
      · intro heq
        have hall : ∀ b ∈ l, b = SPACE := by
          intro b hb
          by_contra hne
          have hmem : b ∈ l.filter (fun c => c != SPACE) :=
            mem_filter.mpr ⟨hb, by simp [hne]⟩
          rcases hl : l.filter (fun c => c != SPACE) with _ | ⟨x, xs⟩
          · rw [hl] at hmem
            exact absurd hmem not_mem_nil
          · rw [hl, padTo_cons, List.cons.injEq] at heq
            have hx : x ∈ l.filter (fun c => c != SPACE) := hl ▸ mem_cons_self
            exact absurd (heq.1.trans ha) (by simpa using (mem_filter.mp hx).2)
        refine ⟨fun b hb _ => hall b hb, ?_⟩
        exact pairwise_of_forall_mem_list (fun x _ y hy _ => hall y hy)
      · rintro ⟨hall, _⟩
        have hnone : l.filter (fun c => c != SPACE) = [] :=
          filter_eq_nil_iff.mpr (fun b hb => by simp [hall b hb ha])
        have hrep : l = List.replicate l.length SPACE :=
          eq_replicate_of_mem (fun b hb => hall b hb ha)
        rw [hnone, padTo, nil_append, length_nil, Nat.sub_zero, replicate_succ,
          ← hrep, ha]
    · rw [filter_cons_of_pos (by simp [ha]), padTo_cons, List.cons.injEq, ih]
      exact ⟨fun h => ⟨fun b _ hs => absurd hs ha, h.2⟩, fun h => ⟨rfl, h.2⟩⟩

/-- An extension that starts with a space is not shown, so it has to be
    empty. -/
theorem padTo_shown (l : List UInt8) :
    padTo l.length (if l.getD 0 0 ≠ SPACE then l.filter (fun c => c != SPACE) else []) = l ↔
      SpacesLast l := by
  rw [← padTo_filter]
  by_cases hfirst : l.getD 0 0 ≠ SPACE
  · rw [if_pos hfirst]
  · rw [if_neg hfirst]
    constructor
    · intro h
      have hall : ∀ b ∈ l, b = SPACE := by
        intro b hb
        rw [← h] at hb
        exact eq_of_mem_replicate hb
      rw [filter_eq_nil_iff.mpr (fun b hb => by simp [hall b hb])]
      exact h
    · intro h
      cases l with
      | nil => rfl
      | cons a l =>
        have hlast := (padTo_filter _).mp h
        have ha : a = SPACE := not_not.mp hfirst
        have hnone : (a :: l).filter (fun c => c != SPACE) = [] := by
          refine filter_eq_nil_iff.mpr (fun b hb => ?_)
          rcases mem_cons.mp hb with rfl | hb
          · simp [ha]
          · simp [(pairwise_cons.mp hlast).1 b hb ha]
        rw [hnone] at h
        exact h

/-! ### Both fields -/

variable {e : List UInt8}

/-- The shown name of a plain entry, before it is read as a C string. -/
theorem nameFrom83_plain (h : ∀ c ∈ e, PlainByte c) :
    nameFrom83 e = (e.take 8).filter (fun c => c != SPACE) ++
      if e.getD 8 0 ≠ SPACE then DOT :: ((e.drop 8).take 3).filter (fun c => c != SPACE)
      else [] := by
  rw [nameFrom83, takeWhile_eq_self_iff.mpr]
  intro c hc
  have hne : c ≠ 0 := by
    rcases mem_append.mp hc with hc | hc
    · exact (h c (mem_of_mem_take (mem_filter.mp hc).1)).2.1
    · by_cases hx : e.getD 8 0 ≠ SPACE
      · rw [if_pos hx] at hc
        rcases mem_cons.mp hc with rfl | hc
        · decide
        · exact (h c (mem_of_mem_drop
            (mem_of_mem_take (mem_filter.mp hc).1))).2.1
      · rw [if_neg hx] at hc
        exact absurd hc not_mem_nil
  simpa using hne

/-- Looking up a base and an extension that are short enough. -/
theorem nameTo83_join {base ext : List UInt8} (hb : ∀ c ∈ base, PlainByte c) (hbl : base.length ≤ 8)
    (he : ∀ c ∈ ext, PlainByte c) (hel : ext.length ≤ 3) :
    nameTo83 (base ++ DOT :: ext) = padTo 8 base ++ padTo 3 ext ∧
      nameTo83 base = padTo 8 base ++ padTo 3 [] := by
  have hdots : ∀ c ∈ base, (c != DOT) = true := fun c hc => by simpa using (hb c hc).1
  have hupper := map_toUpper_plain hb
  constructor
  · rw [nameTo83, takeWhile_append_of_pos hdots, dropWhile_append_of_pos hdots,
      takeWhile_cons_of_neg (by simp), dropWhile_cons_of_neg (by simp), append_nil,
      take_of_length_le hbl, hupper, drop_one, tail_cons,
      take_of_length_le hel, map_toUpper_plain he]
  · rw [nameTo83, takeWhile_eq_self_iff.mpr hdots, dropWhile_eq_nil_iff.mpr hdots,
      take_of_length_le hbl, hupper]
    rfl

/-- Showing a name and looking it up moves the spaces of each field to its
    end, and loses an extension that starts with one. -/
theorem nameTo83_nameFrom83 (hlen : e.length = 11) (h : ∀ c ∈ e, PlainByte c) :
    nameTo83 (nameFrom83 e) = padTo 8 ((e.take 8).filter (fun c => c != SPACE)) ++
      padTo 3 (if e.getD 8 0 ≠ SPACE then (e.drop 8).filter (fun c => c != SPACE) else []) := by
  have hthree : (e.drop 8).take 3 = e.drop 8 :=
    take_of_length_le (by rw [length_drop]; omega)
  have hb : ∀ c ∈ (e.take 8).filter (fun c => c != SPACE), PlainByte c :=
    fun c hc => h c (mem_of_mem_take (mem_filter.mp hc).1)
  have hx : ∀ c ∈ (e.drop 8).filter (fun c => c != SPACE), PlainByte c :=
    fun c hc => h c (mem_of_mem_drop (mem_filter.mp hc).1)
  have hbl : ((e.take 8).filter (fun c => c != SPACE)).length ≤ 8 :=
    Nat.le_trans (length_filter_le _ _) (length_take_le _ _)
  have hxl : ((e.drop 8).filter (fun c => c != SPACE)).length ≤ 3 :=
    Nat.le_trans (length_filter_le _ _) (by rw [length_drop]; omega)
  have hjoin := nameTo83_join hb hbl hx hxl
  rw [nameFrom83_plain h, hthree]
  by_cases hfirst : e.getD 8 0 ≠ SPACE
  · rw [if_pos hfirst, if_pos hfirst]
    exact hjoin.1
  · rw [if_neg hfirst, if_neg hfirst, append_nil]
    exact hjoin.2

/-- The name shown leads back to the entry exactly if no space stands in
    front of another character, in the base and in the extension. -/
theorem shown_name_found_iff {e : List UInt8} (hlen : e.length = 11) (h : ∀ c ∈ e, PlainByte c) :
    nameTo83 (nameFrom83 e) = e ↔ SpacesLast (e.take 8) ∧ SpacesLast (e.drop 8) := by
  have hbase : (e.take 8).length = 8 := by rw [length_take]; omega
  have hext : (e.drop 8).length = 3 := by rw [length_drop]; omega
  have hfirst : e.getD 8 0 = (e.drop 8).getD 0 0 := by
    simp only [getD_eq_getElem?_getD, List.getElem?_drop, Nat.add_zero]
  have hb := padTo_filter (e.take 8)
  have hx := padTo_shown (e.drop 8)
  rw [hbase] at hb
  rw [hext] at hx
  rw [nameTo83_nameFrom83 hlen h, hfirst, ← hb, ← hx]
  have hpad : (padTo 8 ((e.take 8).filter (fun c => c != SPACE))).length = (e.take 8).length := by
    rw [hbase]
    exact padTo_length (Nat.le_trans (length_filter_le _ _) (length_take_le _ _))
  constructor
  · intro heq
    exact append_inj (heq.trans (take_append_drop 8 e).symm) hpad
  · rintro ⟨h1, h2⟩
    rw [h1, h2, take_append_drop]

/-- The entry `README.TXT` is found under the name it is shown with. -/
theorem shown_name_found_readme :
    nameTo83 (nameFrom83 [0x52, 0x45, 0x41, 0x44, 0x4D, 0x45, 0x20, 0x20, 0x54, 0x58, 0x54]) =
      [0x52, 0x45, 0x41, 0x44, 0x4D, 0x45, 0x20, 0x20, 0x54, 0x58, 0x54] :=
  (shown_name_found_iff (by decide) (by simp [PlainByte, DOT])).mpr (by decide)

/-- The entry `A B.TXT` is shown as `AB.TXT`, and a lookup of that name is for
    another entry. -/
theorem shown_name_inner_space :
    nameFrom83 [0x41, 0x20, 0x42, 0x20, 0x20, 0x20, 0x20, 0x20, 0x54, 0x58, 0x54] =
        [0x41, 0x42, 0x2E, 0x54, 0x58, 0x54] ∧
      nameTo83 [0x41, 0x42, 0x2E, 0x54, 0x58, 0x54] =
        [0x41, 0x42, 0x20, 0x20, 0x20, 0x20, 0x20, 0x20, 0x54, 0x58, 0x54] ∧
      nameTo83 (nameFrom83 [0x41, 0x20, 0x42, 0x20, 0x20, 0x20, 0x20, 0x20, 0x54, 0x58, 0x54]) ≠
        [0x41, 0x20, 0x42, 0x20, 0x20, 0x20, 0x20, 0x20, 0x54, 0x58, 0x54] := by
  decide

end SysRust.Fat16
