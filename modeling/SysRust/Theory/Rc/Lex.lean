import SysRust.Core.Rc.Lex

/-!
# Number Literals

The lexer reads a decimal or hexadecimal literal as its value, taken modulo
`2^32`: the value is built up digit by digit in a word that wraps around.

## Main definitions

* `Literal`: The text of a number and its value.

## Theorems

* `lexDecimal_digits`, `lexHex_digits`: The loops over digits compute their value.
* `next_number`, `next_word`, `next_string`, `next_op`: Which routine reads a
  token.
* `next_literal`: The token of a literal.
-/

namespace SysRust.Rc

/-- The value of digits in a base, on top of what has been read so far. -/
def digits (base : Nat) (digit : UInt8 → Nat) (n : Nat) (ds : List UInt8) : Nat :=
  ds.foldl (fun n d => n * base + digit d) n

/-- The text of a literal and its value. -/
inductive Literal : List UInt8 → Nat → Prop where
  | decimal {d : UInt8} {ds : List UInt8} (h : ∀ c ∈ d :: ds, isdigit c = true) :
      Literal (d :: ds) (digits 10 (fun c => c.toNat - 0x30) 0 (d :: ds))
  | hex {x : UInt8} {ds : List UInt8} (hx : x = 0x78 ∨ x = 0x58)
      (h : ∀ c ∈ ds, (hexDigit c).isSome = true) :
      Literal (0x30 :: x :: ds) (digits 16 (fun c => (hexDigit c).getD 0) 0 ds)

variable {ds rest text : List UInt8}

theorem lexDecimal_digits (n : Nat) (h : ∀ c ∈ ds, isdigit c = true)
    (hrest : ∀ c ∈ rest.head?, isdigit c = false) :
    lexDecimal (ds ++ rest) (BitVec.ofNat 32 n) =
      (BitVec.ofNat 32 (digits 10 (fun c => c.toNat - 0x30) n ds), rest) := by
  induction ds generalizing n with
  | nil =>
    cases rest with
    | nil => rfl
    | cons c rest =>
      simp only [List.nil_append, lexDecimal, hrest c rfl, Bool.false_eq_true, if_false]
      rfl
  | cons d ds ih =>
    have hstep := ih (n * 10 + (d.toNat - 0x30)) (fun c hc => h c (List.mem_cons_of_mem d hc))
    simp only [List.cons_append, lexDecimal, h d List.mem_cons_self, if_true]
    rw [BitVec.ofNat_add, BitVec.ofNat_mul] at hstep
    exact hstep

theorem lexHex_digits (n : Nat) (h : ∀ c ∈ ds, (hexDigit c).isSome = true)
    (hrest : ∀ c ∈ rest.head?, hexDigit c = none) :
    lexHex (ds ++ rest) (BitVec.ofNat 32 n) =
      (BitVec.ofNat 32 (digits 16 (fun c => (hexDigit c).getD 0) n ds), rest) := by
  induction ds generalizing n with
  | nil =>
    cases rest with
    | nil => rfl
    | cons c rest =>
      simp only [List.nil_append, lexHex, hrest c rfl]
      rfl
  | cons d ds ih =>
    rcases Option.isSome_iff_exists.mp (h d List.mem_cons_self) with ⟨k, hk⟩
    have hstep := ih (n * 16 + k) (fun c hc => h c (List.mem_cons_of_mem d hc))
    simp only [List.cons_append, lexHex, hk]
    rw [BitVec.ofNat_add, BitVec.ofNat_mul] at hstep
    rw [digits, List.foldl_cons, hk]
    exact hstep

/-- What does not go on a word is no digit. -/
theorem hexDigit_none {c : UInt8} (h : isword c = false) : hexDigit c = none := by
  simp only [isword, isalnum, isalpha, isdigit, Bool.or_eq_false_iff, Bool.and_eq_false_iff,
    decide_eq_false_iff_not] at h
  rcases h with ⟨⟨⟨hlow, hup⟩, hdig⟩, -⟩
  have hF : (0x46 : UInt8) ≤ 0x5A := by decide
  have hf : (0x66 : UInt8) ≤ 0x7A := by decide
  unfold hexDigit
  rw [if_neg (by rintro ⟨h1, h2⟩; exact hdig.elim (· h1) (· h2)),
    if_neg (by rintro ⟨h1, h2⟩; exact hlow.elim (· h1) (· (UInt8.le_trans h2 hf))),
    if_neg (by rintro ⟨h1, h2⟩; exact hup.elim (· h1) (· (UInt8.le_trans h2 hF)))]

theorem isdigit_false {c : UInt8} (h : isword c = false) : isdigit c = false := by
  simp only [isword, isalnum, Bool.or_eq_false_iff] at h
  exact h.1.2

/-- A number in front of something that does not go on with it. -/
theorem lexNumber_literal {n : Nat} (line : Nat) (h : Literal text n)
    (hrest : ∀ c ∈ rest.head?, isword c = false) :
    lexNumber { src := text ++ rest, line := line } =
      (.num (BitVec.ofNat 32 n), { src := rest, line := line }) := by
  cases h with
  | hex hx h =>
    have hlex := lexHex_digits 0 h (fun c hc => hexDigit_none (hrest c hc))
    rcases hx with rfl | rfl
    · exact congrArg (fun r => (Tok.num r.1, (⟨r.2, line⟩ : Cursor))) hlex
    · exact congrArg (fun r => (Tok.num r.1, (⟨r.2, line⟩ : Cursor))) hlex
  | @decimal d ds h =>
    have hlex := lexDecimal_digits 0 h (fun c hc => isdigit_false (hrest c hc))
    have hx (x : UInt8) (hx : isdigit x = false) (hw : isword x = true) (us : List UInt8) :
        d :: ds ++ rest ≠ 0x30 :: x :: us := by
      intro heq
      cases ds with
      | nil =>
        have hr : rest = x :: us := (List.cons.inj heq).2
        have := hrest x (by rw [hr]; rfl)
        rw [hw] at this
        exact Bool.noConfusion this
      | cons d' ds =>
        have hd : d' = x := (List.cons.inj (List.cons.inj heq).2).1
        have := h d' (by simp)
        rw [hd, hx] at this
        exact Bool.noConfusion this
    unfold lexNumber
    split
    · exact absurd ‹_› (hx 0x78 (by decide) (by decide) _)
    · exact absurd ‹_› (hx 0x58 (by decide) (by decide) _)
    · rw [show (0 : BitVec 32) = BitVec.ofNat 32 0 from rfl, hlex]

/-! ### Which routine reads a token

The first byte behind white space and comments decides. -/

section First

variable {l : Lexer} {b : UInt8} (hsrc : l.cur.skipWs.src = b :: rest)

include hsrc

theorem next_number (hb : isdigit b = true) :
    l.next = { l with
      tok := (lexNumber l.cur.skipWs).1, cur := (lexNumber l.cur.skipWs).2,
      tokLine := l.cur.skipWs.line } := by
  have hquote : b ≠ 0x27 := by
    rintro rfl
    exact absurd hb (by decide)
  simp only [Lexer.next, hsrc, if_neg hquote, hb, if_true]

theorem next_word (hb : (isalpha b || b == 0x5F) = true) :
    l.next = { l with
      tok := (lexWord l.cur.skipWs).1, cur := (lexWord l.cur.skipWs).2,
      tokLine := l.cur.skipWs.line } := by
  have hquote : b ≠ 0x27 := by
    rintro rfl
    exact absurd hb (by decide)
  have hdigit : isdigit b = false := by
    rw [Bool.or_eq_true, beq_iff_eq] at hb
    rcases hb with hb | rfl
    · simp only [isalpha, isdigit, Bool.or_eq_true, Bool.and_eq_true, Bool.and_eq_false_iff,
        decide_eq_true_eq, decide_eq_false_iff_not, UInt8.le_iff_toNat_le] at hb ⊢
      simp only [UInt8.reduceToNat] at hb ⊢
      omega
    · decide
  simp only [Lexer.next, hsrc, if_neg hquote, hdigit, Bool.false_eq_true, if_false, hb, if_true]

theorem next_string (hb : b = 0x22) :
    l.next = { l with
      tok := (lexString l.cur.skipWs).1, cur := (lexString l.cur.skipWs).2,
      tokLine := l.cur.skipWs.line } := by
  subst hb
  simp only [Lexer.next, hsrc]
  rfl

/-- The bytes that are left to operators and punctuation. -/
theorem next_op {r : Tok × Cursor} (hquote : b ≠ 0x27) (hdigit : isdigit b = false)
    (hword : (isalpha b || b == 0x5F) = false) (hstring : b ≠ 0x22)
    (hop : lexOp b l.cur.skipWs.advance = some r) :
    l.next = { l with tok := r.1, cur := r.2, tokLine := l.cur.skipWs.line } := by
  simp only [Lexer.next, hsrc, if_neg hquote, hdigit, hword, Bool.false_eq_true, if_false,
    if_neg hstring, hop]

end First

/-- The token of a literal, behind white space and comments. -/
theorem next_literal {l : Lexer} {n : Nat} (h : Literal text n)
    (hsrc : l.cur.skipWs.src = text ++ rest) (hrest : ∀ c ∈ rest.head?, isword c = false) :
    l.next.tok = .num (BitVec.ofNat 32 n) ∧ l.next.cur.src = rest := by
  have hnum := lexNumber_literal l.cur.skipWs.line h hrest
  rw [← hsrc] at hnum
  have hhead : ∃ b bs, text ++ rest = b :: bs ∧ isdigit b = true := by
    cases h with
    | decimal h => exact ⟨_, _, rfl, h _ List.mem_cons_self⟩
    | hex hx h => exact ⟨_, _, rfl, by decide⟩
  rcases hhead with ⟨b, bs, hb, hdig⟩
  rw [next_number (hsrc.trans hb) hdig]
  exact ⟨congrArg Prod.fst hnum, congrArg (fun r => r.2.src) hnum⟩

end SysRust.Rc
