import SysRust.Theory.Rc.Code
import SysRust.Theory.Rc.Emit

/-!
# Reversing the Arguments of a Call

The arguments of a call are pushed from left to right, and a function expects
the first one at the lowest address. `emit_reverse_args` exchanges the words
at both ends of the arguments and goes on inwards. After `n` exchanges the
first and the last `n` words are in their places. With half of the words
exchanged that is all of them, as one in the middle stays where it is.

## Main definitions

* `swapCode`, `reverseCode`: The code of one exchange and of the first `n`.
* `Turned`: The first and the last `n` words have been exchanged.

## Theorems

* `runs_swap`: Running one exchange.
* `runs_reverse`: Running the first `n`.
* `execs_entry`: The parameters behind the prologue.
* `reverseArgs_exact`: The arguments are reversed and become the parameters.
-/

namespace SysRust.Rc

open X86 Emitter List

/-! ### The code -/

/-- Exchange two words on the stack. -/
def swapCode (i j : Nat) : List Instr :=
  [.load eax (.mem (some esp) (BitVec.ofNat 32 (i * 4))),
    .load ecx (.mem (some esp) (BitVec.ofNat 32 (j * 4))),
    .mov (.mem (some esp) (BitVec.ofNat 32 (i * 4))) ecx,
    .mov (.mem (some esp) (BitVec.ofNat 32 (j * 4))) eax]

/-- The first `n` exchanges of `argc` words. -/
def reverseCode (argc n : Nat) : List Instr :=
  (List.range n).flatMap (fun ai => swapCode ai (argc - 1 - ai))

variable {argc n i j k lo hi : Nat} {r s t : Cpu} {is : List Instr}

theorem reverseCode_succ (argc n : Nat) :
    reverseCode argc (n + 1) = reverseCode argc n ++ swapCode n (argc - 1 - n) := by
  rw [reverseCode, range_succ, flatMap_append, flatMap_singleton]
  rfl

theorem emits_swapArgs (i j : Nat) :
    Emits (swapArgs (BitVec.ofNat 32 (i * 4)) (BitVec.ofNat 32 (j * 4))) (swapCode i j) := by
  intro e
  simp only [swapArgs, dword_eq, ← bytes_append]
  rfl

theorem emits_reverseArgs (argc : Nat) :
    Emits (emitReverseArgs argc) (reverseCode argc (argc / 2)) := by
  intro e
  unfold emitReverseArgs
  generalize argc / 2 = n
  induction n with
  | zero => rfl
  | succ n ih =>
    rw [range_succ, foldl_append, ih, foldl_cons, foldl_nil, emits_swapArgs _ _ _,
      reverseCode_succ, assemble_append, bytes_append]

/-! ### Running it -/

/-- Both words go into registers, and then back to memory. -/
theorem runs_swap (h : Runs lo hi r s (swapCode i j ++ is)) (hs : Stacked lo hi argc s)
    (hic : i < argc) (hjc : j < argc) :
    ∃ t, Runs lo hi r t is ∧ t.reg esp = s.reg esp ∧
      t.mem = store (store s.mem (slotAt s i) 4 (wordAt s j)) (slotAt s j) 4 (wordAt s i) := by
  have hval (k : Nat) : (BitVec.ofNat 32 (wordAt s k)).toNat = wordAt s k :=
    (BitVec.toNat_ofNat _ _).trans (Nat.mod_eq_of_lt (load_lt _ _ _))
  refine ⟨_, (((h.load hs hic).load hs hjc).store hs hic).store hs hjc, rfl, ?_⟩
  show store (store s.mem (slotAt s i) 4 (BitVec.ofNat 32 (wordAt s j)).toNat) (slotAt s j) 4
    (BitVec.ofNat 32 (wordAt s i)).toNat = _
  rw [hval, hval]

/-- The first and the last `n` of the words have been exchanged, and nothing
    else has changed. -/
structure Turned (argc n : Nat) (s t : Cpu) : Prop where
  sp : t.reg esp = s.reg esp
  words : ∀ k < argc, wordAt t k = wordAt s (if k < n ∨ argc ≤ k + n then argc - 1 - k else k)
  mem : ∀ a, a < slotAt s 0 ∨ slotAt s argc ≤ a → t.mem a = s.mem a

theorem runs_reverse (hs : Stacked lo hi argc s) (hn : 2 * n ≤ argc) (is : List Instr)
    (h : Runs lo hi r s (reverseCode argc n ++ is)) :
    ∃ t, Runs lo hi r t is ∧ Turned argc n s t := by
  induction n generalizing is with
  | zero => exact ⟨s, h, rfl, fun k hk => by rw [if_neg (by omega)], fun _ _ => rfl⟩
  | succ n ih =>
    rw [reverseCode_succ, append_assoc] at h
    rcases ih (by omega) _ h with ⟨t, hat, ht⟩
    have hst : Stacked lo hi argc t := by
      rw [Stacked, ht.sp]
      exact hs
    rcases runs_swap hat hst (by omega) (by omega) with ⟨u, hu, hsp, hm⟩
    refine ⟨u, hu, hsp.trans ht.sp, fun k hk => ?_, fun a ha => ?_⟩
    · have hw := ht.words k hk
      have hlo := ht.words n (by omega)
      have hhi := ht.words (argc - 1 - n) (by omega)
      rw [if_neg (by omega)] at hlo hhi
      rw [wordAt, hm, hlo, hhi]
      simp only [slotAt, hsp]
      by_cases h1 : k = argc - 1 - n
      · rw [h1, load_store_self, if_pos (by omega), wordAt, Nat.mod_eq_of_lt (load_lt _ _ _),
          show argc - 1 - (argc - 1 - n) = n by omega]
        rfl
      rw [load_store_disjoint (by omega)]
      by_cases h2 : k = n
      · rw [h2, load_store_self, if_pos (by omega), wordAt, Nat.mod_eq_of_lt (load_lt _ _ _)]
      · have hsame : (k < n + 1 ∨ argc ≤ k + (n + 1)) ↔ (k < n ∨ argc ≤ k + n) := by omega
        rw [load_store_disjoint (by omega)]
        simp only [hsame]
        exact hw
    · simp only [slotAt] at ha hm
      rw [hm, ht.sp, store_outside (by omega), store_outside (by omega)]
      exact ht.mem a ha

/-! ### The call -/

/-- The call and the prologue of the function. -/
def entryCode (rel frame : BitVec 32) : List Instr :=
  [.call rel, .push ebp, .mov (.reg ebp) esp, .aluImm .sub (.reg esp) frame]

-- The bytes of the prologue are the ones that `parse_function` emits.
example (frame : BitVec 32) : assemble (entryCode 0 frame).tail =
    [0x55, 0x89, 0xE5, 0x81, 0xEC] ++ leBytes frame := rfl

/-- Behind the prologue the words on the stack are the parameters. -/
theorem execs_entry (rel frame : BitVec 32) (hroom : 8 ≤ (s.reg esp).toNat)
    (hfit : slotAt s argc ≤ 2 ^ 32) : ∃ t, execs (entryCode rel frame) s = some t ∧
      ∀ k < argc, load t.mem (t.reg ebp + BitVec.ofNat 32 (8 + 4 * k)).toNat 4 = wordAt s k := by
  have h4 := toNat_sub_four (a := s.reg esp) (by omega)
  have h8 := toNat_sub_four (a := s.reg esp - 4) (by omega)
  have hcall := congrArg (Option.map (fun t => { t with eip := s.eip + 5 + rel }))
    (push_eq (s := s.skip 5) (s.eip + 5) (show 4 ≤ (s.reg esp).toNat by omega))
  refine ⟨_, Option.bind_eq_some_iff.mpr ⟨_, hcall, Option.bind_eq_some_iff.mpr
    ⟨_, push_eq _ (show 4 ≤ (s.reg esp - 4).toNat by omega), rfl⟩⟩, fun k hk => ?_⟩
  show load (store (store s.mem _ 4 _) ((s.reg esp - 4).toNat - 4) 4 _)
    (s.reg esp - 4 - 4 + BitVec.ofNat 32 (8 + 4 * k)).toNat 4 = load s.mem (slotAt s k) 4
  unfold slotAt at hfit ⊢
  have haddr : (s.reg esp - 4 - 4 + BitVec.ofNat 32 (8 + 4 * k)).toNat =
      (s.reg esp).toNat + 4 * k := by
    rw [toNat_add_ofNat (by omega)]
    omega
  rw [haddr, load_store_disjoint (by omega), load_store_disjoint]
  show _ ∨ (s.reg esp).toNat - 4 + 4 ≤ _
  omega

/-- The code for any number of arguments, run on any stack that is apart from
    it, reverses the words and changes nothing else. So behind the prologue
    parameter `k` is at `[ebp + 8 + 4 * k]`. -/
theorem reverseArgs_exact (argc : Nat) : ∃ is, Emits (emitReverseArgs argc) is ∧
    ∀ s, At s is → Stacked s.eip.toNat (s.eip.toNat + size is) argc s →
      ∃ t, Reaches s t ∧ t.eip.toNat = s.eip.toNat + size is ∧ t.reg esp = s.reg esp ∧
        (∀ k < argc, wordAt t k = wordAt s (argc - 1 - k)) ∧
        (∀ a, a < slotAt s 0 ∨ slotAt s argc ≤ a → t.mem a = s.mem a) ∧
        (8 ≤ (s.reg esp).toNat → ∀ rel frame, ∃ u, execs (entryCode rel frame) t = some u ∧
          ∀ k < argc, load u.mem (u.reg ebp + BitVec.ofNat 32 (8 + 4 * k)).toNat 4 =
            wordAt s (argc - 1 - k)) := by
  refine ⟨_, emits_reverseArgs argc, fun s h hs => ?_⟩
  rcases runs_reverse (r := s) (n := argc / 2) hs (by omega) [] (by
    rw [append_nil]
    exact ⟨Reaches.refl s, h, Nat.le_refl _, rfl⟩) with ⟨t, ht, hsp, hwords, hmem⟩
  have hall : ∀ k < argc, wordAt t k = wordAt s (argc - 1 - k) := by
    intro k hk
    rw [hwords k hk]
    congr 1
    split_ifs
    · rfl
    · omega
  refine ⟨t, ht.reaches, ht.stop, hsp, hall, hmem, fun hroom rel frame => ?_⟩
  have hfit : slotAt t argc ≤ 2 ^ 32 := by
    rw [slotAt, hsp]
    exact hs.1
  rcases execs_entry rel frame (hsp ▸ hroom) hfit with ⟨u, hu, hp⟩
  exact ⟨u, hu, fun k hk => (hp k hk).trans (hall k hk)⟩

/-- In front of the code for five arguments, with the words 1 to 5 on the stack. -/
def fiveArgs : Cpu where
  reg r := if r = esp then 0x1000 else 0
  eip := 0
  flags := none
  mem a := if a < 0x1000 then (emitReverseArgs 5 (Emitter.init 0)).code.getD a 0
    else if a % 4 = 0 then UInt8.ofNat ((a - 0x1000) / 4 + 1) else 0

theorem wordAt_fiveArgs : ∀ k < 5, wordAt fiveArgs k = k + 1 := by decide

theorem reverseArgs_exact_five : ∃ t, Reaches fiveArgs t ∧ (∀ k < 5, wordAt t k = 5 - k) ∧
    ∃ u, execs (entryCode 0 0) t = some u ∧
      ∀ k < 5, load u.mem (u.reg ebp + BitVec.ofNat 32 (8 + 4 * k)).toNat 4 = 5 - k := by
  rcases reverseArgs_exact 5 with ⟨is, hemits, hrun⟩
  have hcode : (emitReverseArgs 5 (Emitter.init 0)).code = assemble is :=
    ((hemits.grows _).2 (by decide +kernel)).2.1.trans (nil_append _)
  have hsize : size is = 56 := (congrArg length hcode).symm.trans (by decide +kernel)
  have hat : At fiveArgs is := by
    refine ⟨fun i hi => ?_, by rw [hsize]; decide⟩
    have hlt : i < 56 := hsize ▸ hi
    rw [show fiveArgs.eip.toNat + i = i from Nat.zero_add i]
    simp only [fiveArgs, hcode]
    rw [if_pos (by omega), ← getElem_eq_getD]
  have hstack : Stacked fiveArgs.eip.toNat (fiveArgs.eip.toNat + size is) 5 fiveArgs := by
    rw [hsize]
    exact ⟨by decide, Or.inl (by decide)⟩
  have hword : ∀ k < 5, wordAt fiveArgs (5 - 1 - k) = 5 - k := by
    intro k hk
    rw [wordAt_fiveArgs _ (by omega)]
    omega
  rcases hrun _ hat hstack with ⟨t, ht, -, -, hturned, -, hentry⟩
  rcases hentry (by decide) 0 0 with ⟨u, hu, hparam⟩
  exact ⟨t, ht, fun k hk => (hturned k hk).trans (hword k hk),
    u, hu, fun k hk => (hparam k hk).trans (hword k hk)⟩

end SysRust.Rc
