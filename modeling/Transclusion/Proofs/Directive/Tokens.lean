import Transclusion.Directive.Walk
import Transclusion.Proofs.Directive.Grammar

/-!
# Tokens and bytes of a text

How the tokens of a text follow its characters, and what bytes these have.

* `lexemes_append` — a text is split into tokens piece by piece where no token spans the cut;
* `exists_mem_of_mem_lexemes` — every token begins at a character of the text, which tells its kind;
* `Position.offset_advance` — the offset of a position counts the bytes in front of it.
-/

namespace Transclusion

namespace Directive.Walk

/-! ## Bytes -/

@[simp] theorem bytes_nil : bytes [] = 0 := rfl

@[simp] theorem bytes_cons (c : Char) (cs : List Char) :
    bytes (c :: cs) = c.utf8Size + bytes cs := rfl

@[simp] theorem bytes_append (cs ds : List Char) : bytes (cs ++ ds) = bytes cs + bytes ds := by
  induction cs with
  | nil => simp
  | cons c cs ih => rw [List.cons_append, bytes_cons, bytes_cons, ih, Nat.add_assoc]

theorem bytes_eq_zero {cs : List Char} : bytes cs = 0 ↔ cs = [] := by
  cases cs with
  | nil => simp
  | cons c cs =>
    have hpos := c.utf8Size_pos
    simp
    omega

/-! ## Tokens -/

@[simp] theorem lexemes_nil (offset : Nat) : lexemes offset [] = [] := by
  rw [lexemes]

theorem lexemes_cons (offset : Nat) (c : Char) (cs : List Char) :
    lexemes offset (c :: cs) =
      ⟨(next c cs).1, offset, offset + bytes (next c cs).2.1⟩ ::
        lexemes (offset + bytes (next c cs).2.1) (next c cs).2.2 := by
  rw [lexemes]

theorem next_of_not_opening {c : Char} {cs : List Char}
    (h : ∀ rest, c = ':' → cs = '[' :: rest → False) :
    next c cs =
      match single? c with
      | some token => (token, [c], cs)
      | none =>
          if isGapChar c then (.blanks, c :: cs.takeWhile isGapChar, cs.dropWhile isGapChar)
          else (.text, c :: cs.takeWhile isTextChar, cs.dropWhile isTextChar) :=
  next.eq_2 c cs h

/-- No opening and no run of characters goes on from `cs` into `ds`. -/
def Apart (cs ds : List Char) : Prop :=
  ∀ d ∈ ds.head?, d ≠ '[' ∧ isTextChar d = false ∧
    (isGapChar d = true → ∀ c ∈ cs, isGapChar c = false)

theorem apart_nil (cs : List Char) : Apart cs [] := by
  simp [Apart]

theorem Apart.of_suffix {cs cs' ds : List Char} (h : Apart cs ds) (hsuffix : cs' <:+ cs) :
    Apart cs' ds :=
  fun d hd => ⟨(h d hd).1, (h d hd).2.1, fun hgap c hc => (h d hd).2.2 hgap c (hsuffix.subset hc)⟩

theorem run_append {p : Char → Bool} (cs : List Char) {ds : List Char}
    (h : ∀ d ∈ ds.head?, p d = false) :
    (cs ++ ds).takeWhile p = cs.takeWhile p ∧ (cs ++ ds).dropWhile p = cs.dropWhile p ++ ds := by
  have hsplit : cs ++ ds = cs.takeWhile p ++ (cs.dropWhile p ++ ds) := by
    rw [← List.append_assoc, List.takeWhile_append_dropWhile]
  have hrun : ∀ c ∈ cs.takeWhile p, p c = true :=
    fun c hc => List.all_eq_true.mp List.all_takeWhile c hc
  have hrest : ∀ c ∈ (cs.dropWhile p ++ ds).head?, p c = false :=
    forall_head?_append (head?_dropWhile_eq_false p cs) h
  rw [hsplit]
  exact ⟨takeWhile_run hrun hrest, dropWhile_run hrun hrest⟩

theorem not_opening_append {c : Char} {cs ds : List Char} (h : Apart (c :: cs) ds)
    (hopen : ∀ rest, c = ':' → cs = '[' :: rest → False) :
    ∀ rest, c = ':' → cs ++ ds = '[' :: rest → False := by
  intro rest hc heq
  cases cs with
  | nil =>
    rw [List.nil_append] at heq
    exact (h '[' (by rw [heq]; rfl)).1 rfl
  | cons x xs =>
    rw [List.cons_append, List.cons.injEq] at heq
    exact hopen xs hc (by rw [heq.1])

/-- The first token of a text is the same whatever follows apart from it. -/
theorem next_append_apart {c : Char} {cs ds : List Char} (h : Apart (c :: cs) ds) :
    next c (cs ++ ds) = ((next c cs).1, (next c cs).2.1, (next c cs).2.2 ++ ds) := by
  fun_cases next c cs with
  | case1 rest => rfl
  | case2 c cs hopen token hsingle =>
    rw [next_of_not_opening (not_opening_append h hopen), hsingle]
  | case3 c cs hopen hsingle hgap =>
    have hhead : ∀ d ∈ ds.head?, isGapChar d = false := by
      intro d hd
      refine Bool.eq_false_iff.mpr fun hd' => ?_
      have hc := (h d hd).2.2 hd' c List.mem_cons_self
      rw [hgap] at hc
      exact nomatch hc
    have happend := run_append cs hhead
    rw [next_of_not_opening (not_opening_append h hopen), hsingle]
    simp only [hgap, if_true, happend.1, happend.2]
  | case4 c cs hopen hsingle hgap =>
    have hhead : ∀ d ∈ ds.head?, isTextChar d = false := fun d hd => (h d hd).2.1
    have happend := run_append cs hhead
    rw [next_of_not_opening (not_opening_append h hopen), hsingle]
    simp only [hgap, happend.1, happend.2]
    rfl

theorem lexemes_append {cs ds : List Char} (h : Apart cs ds) (offset : Nat) :
    lexemes offset (cs ++ ds) = lexemes offset cs ++ lexemes (offset + bytes cs) ds := by
  fun_induction lexemes offset cs with
  | case1 offset => simp
  | case2 offset c cs stop ih =>
    have happend := next_append c cs
    have hrest : (next c cs).2.2 <:+ c :: cs := ⟨_, happend⟩
    have hbytes := congrArg bytes happend
    rw [bytes_append] at hbytes
    rw [List.cons_append, lexemes_cons, next_append_apart h]
    simp only [List.cons_append]
    rw [ih (h.of_suffix hrest), ← hbytes, ← Nat.add_assoc]

/-- Every token begins at a character, and that character tells its kind. -/
theorem exists_mem_of_mem_lexemes {offset : Nat} {cs : List Char} {lexeme : Lexeme}
    (h : lexeme ∈ lexemes offset cs) :
    ∃ c ∈ cs, ∃ rest, lexeme.token = (next c rest).1 := by
  fun_induction lexemes offset cs with
  | case1 offset => exact nomatch h
  | case2 offset c cs stop ih =>
    rcases List.mem_cons.mp h with rfl | h
    · exact ⟨c, List.mem_cons_self, cs, rfl⟩
    · obtain ⟨d, hd, rest, hrest⟩ := ih h
      have hsuffix : (next c cs).2.2 <:+ c :: cs := ⟨_, next_append c cs⟩
      exact ⟨d, hsuffix.subset hd, rest, hrest⟩

/-- The kinds of tokens that end a label, a target or a secondary text. -/
theorem next_token_eq (c : Char) (cs : List Char) :
    ((next c cs).1 = .bracketClose → c = ']') ∧ ((next c cs).1 = .parenClose → c = ')') ∧
      ((next c cs).1 = .parenOpen → c = '(') ∧ ((next c cs).1 = .newline → c = '\n') ∧
      ((next c cs).1 = .blanks → isGapChar c = true) := by
  fun_cases next c cs with
  | case1 rest => simp
  | case2 c cs hopen token hsingle =>
    revert hsingle
    fun_cases single? c <;> grind
  | case3 c cs hopen hsingle hgap => simp [hgap]
  | case4 c cs hopen hsingle hgap => simp

theorem next_token_ne_opening {c : Char} {cs : List Char}
    (h : ∀ opened, c :: cs ≠ ':' :: '[' :: opened) : (next c cs).1 ≠ .opening := by
  fun_cases next c cs with
  | case1 rest => exact absurd rfl (h rest)
  | case2 c cs hopen token hsingle =>
    revert hsingle
    fun_cases single? c <;> grind
  | case3 c cs hopen hsingle hgap => simp
  | case4 c cs hopen hsingle hgap => simp

end Directive.Walk

/-! ## Positions -/

namespace Position

open Directive.Walk

theorem offset_advance (p : Position) (cs : List Char) :
    (p.advance cs).offset = p.offset + bytes cs := by
  induction cs generalizing p with
  | nil => rfl
  | cons c cs ih =>
    have hnext : (p.next c).offset = p.offset + c.utf8Size := by
      rw [next]
      split <;> rfl
    rw [advance_cons, ih, hnext, bytes_cons, Nat.add_assoc]

end Position

end Transclusion
