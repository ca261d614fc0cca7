import Mathlib.Data.List.Basic
import Transclusion.Glob.Expression

/-!
# The walk of an expression finds its matches

A mark stands behind an expression exactly if the text in front of it ends in a match that starts at
a mark. So an expression matches a whole text as its grammar says.

* `Expression.Reached` — the places where a match ends that starts at a mark;
* `Expression.stepMany_eq_true` — the walk over any number of bytes;
* `Expression.step_eq_true` — the walk over an expression;
* `Expression.isMatch_iff` — whether it matches a whole text.
-/

namespace Transclusion.Glob.Expression

variable {c : ByteClass} {bs : List UInt8} {marks : List Bool} {i j : Nat}

/-- Some bytes of a certain kind reach from the start to the place `j`. -/
def Starts (matched : List UInt8 → Prop) (bs : List UInt8) (j : Nat) : Prop :=
  ∃ ys back, bs = ys ++ back ∧ matched ys ∧ j = ys.length

/-- Some bytes of a certain kind end at the place `j`, and there is a mark where they start. -/
def Reached (matched : List UInt8 → Prop) (bs : List UInt8) (marks : List Bool) (j : Nat) : Prop :=
  ∃ front ys back, bs = front ++ (ys ++ back) ∧ marks[front.length]? = some true ∧ matched ys ∧
    j = front.length + ys.length

/-- The same with the first byte left out. -/
theorem reached_cons {matched : List UInt8 → Prop} {b : UInt8} {mark : Bool} :
    Reached matched (b :: bs) (mark :: marks) (j + 1) ↔
      (mark = true ∧ Starts matched (b :: bs) (j + 1)) ∨ Reached matched bs marks j := by
  constructor
  · rintro ⟨front, ys, back, hbs, hmark, hys, hj⟩
    cases front with
    | nil => exact .inl ⟨Option.some.inj hmark, ys, back, hbs, hys, by simpa using hj⟩
    | cons b' front =>
      obtain ⟨-, hbs⟩ := List.cons.inj hbs
      refine .inr ⟨front, ys, back, hbs, hmark, hys, ?_⟩
      rw [List.length_cons] at hj
      omega
  · rintro (⟨hmark, ys, back, hbs, hys, hj⟩ | ⟨front, ys, back, rfl, hmark, hys, rfl⟩)
    · exact ⟨[], ys, back, hbs, congrArg some hmark, hys, by simpa using hj⟩
    · exact ⟨b :: front, ys, back, rfl, hmark, hys, Nat.add_right_comm _ _ _⟩

theorem reached_zero {matched : List UInt8 → Prop} {mark : Bool} :
    Reached matched bs (mark :: marks) 0 ↔ mark = true ∧ matched [] := by
  constructor
  · rintro ⟨front, ys, back, -, hmark, hys, hzero⟩
    obtain ⟨hfront, hnil⟩ := Nat.add_eq_zero_iff.mp hzero.symm
    obtain rfl := List.eq_nil_of_length_eq_zero hfront
    obtain rfl := List.eq_nil_of_length_eq_zero hnil
    exact ⟨Option.some.inj hmark, hys⟩
  · rintro ⟨hmark, hnil⟩
    exact ⟨[], [], bs, rfl, congrArg some hmark, hnil, rfl⟩

/-! ## Bytes of a class -/

theorem stepOne_eq_true (c : ByteClass) (bs : List UInt8) (marks : List Bool) (j : Nat) :
    (stepOne c bs marks)[j]? = some true ↔
      Reached (fun ys => ∃ b, ys = [b] ∧ c.contains b) bs marks j := by
  cases j with
  | zero =>
    refine iff_of_false nofun ?_
    rintro ⟨front, ys, back, -, -, ⟨b, rfl, -⟩, hj⟩
    exact absurd hj (Nat.zero_ne_add_one _)
  | succ j =>
    rw [stepOne, List.getElem?_cons_succ, List.getElem?_zipWith_eq_some]
    constructor
    · rintro ⟨mark, b, hmark, hb, hboth⟩
      obtain ⟨rfl, hcontains⟩ := Bool.and_eq_true_iff.mp hboth
      obtain ⟨hlt, rfl⟩ := List.getElem?_eq_some_iff.mp hb
      have hlength : (bs.take j).length = j := List.length_take_of_le (Nat.le_of_lt hlt)
      refine ⟨bs.take j, [bs[j]], bs.drop (j + 1), ?_, ?_, ⟨_, rfl, hcontains⟩, ?_⟩
      · rw [List.singleton_append, List.getElem_cons_drop, List.take_append_drop]
      · rw [hlength, hmark]
      · rw [hlength, List.length_singleton]
    · rintro ⟨front, ys, back, rfl, hmark, ⟨b, rfl, hcontains⟩, hj⟩
      obtain rfl : j = front.length := Nat.succ.inj hj
      exact ⟨true, b, hmark, by simp, hcontains⟩

/-- Bytes of the class reach to a place if the first one is of the class and the others reach
there. -/
theorem starts_cons {b : UInt8} :
    Starts (fun ys => ∀ b ∈ ys, c.contains b) (b :: bs) (j + 1) ↔
      c.contains b = true ∧ Starts (fun ys => ∀ b ∈ ys, c.contains b) bs j := by
  constructor
  · rintro ⟨ys, back, hbs, hys, hj⟩
    obtain ⟨b', ys, rfl⟩ := List.exists_cons_of_length_eq_add_one hj.symm
    obtain ⟨rfl, rfl⟩ := List.cons.inj hbs
    obtain ⟨hb, hys⟩ := List.forall_mem_cons.mp hys
    exact ⟨hb, ys, back, rfl, hys, Nat.succ.inj hj⟩
  · rintro ⟨hb, ys, back, rfl, hys, rfl⟩
    exact ⟨b :: ys, back, rfl, List.forall_mem_cons.mpr ⟨hb, hys⟩, rfl⟩

theorem starts_zero {matched : List UInt8 → Prop} : Starts matched bs 0 ↔ matched [] := by
  constructor
  · rintro ⟨ys, back, -, hys, hzero⟩
    rwa [List.eq_nil_of_length_eq_zero hzero.symm] at hys
  · exact fun hnil => ⟨[], bs, rfl, hnil, rfl⟩

/-- The mark that is carried along is that of a place from which bytes of the class reach here. -/
theorem stepMany_eq_true {carried : Bool} (h : marks.length = bs.length + 1) :
    (stepMany c carried bs marks)[j]? = some true ↔
      (carried = true ∧ Starts (fun ys => ∀ b ∈ ys, c.contains b) bs j) ∨
      Reached (fun ys => ∀ b ∈ ys, c.contains b) bs marks j := by
  induction bs generalizing marks carried j with
  | nil =>
    obtain ⟨mark, rfl⟩ := List.length_eq_one_iff.mp h
    cases j with
    | zero => simp [stepMany, reached_zero, starts_zero, or_comm]
    | succ j =>
      refine iff_of_false nofun ?_
      rintro (⟨-, ys, back, hbs, -, hj⟩ | ⟨front, ys, back, hbs, -, -, hj⟩)
      · simp [List.append_eq_nil_iff.mp hbs.symm] at hj
      · simp only [List.nil_eq, List.append_eq_nil_iff] at hbs
        simp [hbs.1, hbs.2.1] at hj
  | cons b bs ih =>
    obtain ⟨mark, marks, rfl⟩ := List.exists_cons_of_length_eq_add_one h
    cases j with
    | zero => simp [stepMany, reached_zero, starts_zero, or_comm]
    | succ j =>
      rw [stepMany, List.getElem?_cons_succ, ih (Nat.succ.inj h), reached_cons, starts_cons]
      simp only [Bool.and_eq_true, Bool.or_eq_true]
      -- either mark is carried over the first byte if that is of the class
      rw [or_and_right, or_and_right, and_assoc, and_assoc, or_assoc, or_left_comm]

/-! ## Whole expressions -/

theorem length_stepMany {carried : Bool} (h : marks.length = bs.length + 1) :
    (stepMany c carried bs marks).length = bs.length + 1 := by
  induction bs generalizing marks carried with
  | nil =>
    obtain ⟨mark, rfl⟩ := List.length_eq_one_iff.mp h
    rfl
  | cons b bs ih =>
    obtain ⟨mark, marks, rfl⟩ := List.exists_cons_of_length_eq_add_one h
    rw [stepMany, List.length_cons, ih (Nat.succ.inj h), List.length_cons]

theorem length_step (h : marks.length = bs.length + 1) (e : Expression) :
    (step bs e marks).length = bs.length + 1 := by
  induction e generalizing marks with
  | empty => exact h
  | one c => simp [step, stepOne, h]
  | many c => exact length_stepMany h
  | seq a b iha ihb => exact ihb (iha h)
  | either a b iha ihb => simp [step, iha h, ihb h]

/-- A match of the first expression, and one of the second that starts where that ends. -/
theorem reached_seq {a b : Expression} {middle : List Bool}
    (h : ∀ k, middle[k]? = some true ↔ Reached a.Matches bs marks k) :
    Reached b.Matches bs middle j ↔ Reached (seq a b).Matches bs marks j := by
  constructor
  · rintro ⟨front, zs, back, hbs, hmiddle, hzs, rfl⟩
    obtain ⟨front', ys, back', hbs', hmark, hys, hlength⟩ := (h front.length).mp hmiddle
    have hfront : front = front' ++ ys := by
      rw [← List.append_assoc] at hbs'
      exact (List.append_inj (hbs.symm.trans hbs') (by rw [hlength, List.length_append])).1
    refine ⟨front', ys ++ zs, back, ?_, hmark, .seq hys hzs, ?_⟩
    · rw [hbs, hfront, List.append_assoc, List.append_assoc]
    · rw [hlength, List.length_append, Nat.add_assoc]
  · rintro ⟨front, xs, back, rfl, hmark, hxs, rfl⟩
    cases hxs with
    | @seq _ _ ys zs hys hzs =>
      have hmiddle : middle[(front ++ ys).length]? = some true := by
        refine (h _).mpr ⟨front, ys, zs ++ back, ?_, hmark, hys, List.length_append⟩
        rw [List.append_assoc]
      refine ⟨front ++ ys, zs, back, ?_, hmiddle, hzs, ?_⟩
      · rw [List.append_assoc, List.append_assoc]
      · rw [List.length_append, List.length_append, Nat.add_assoc]

/-- A place is marked in the union of two lists of marks if it is in one of them. -/
theorem getElem?_zipWith_or {left right : List Bool} (h : left.length = right.length) :
    (List.zipWith (· || ·) left right)[j]? = some true ↔
      left[j]? = some true ∨ right[j]? = some true := by
  rw [List.getElem?_zipWith_eq_some]
  constructor
  · rintro ⟨x, y, hx, hy, hor⟩
    obtain rfl | rfl := Bool.or_eq_true_iff.mp hor
    · exact .inl hx
    · exact .inr hy
  · rintro (hx | hy)
    · have hlt := (List.getElem?_eq_some_iff.mp hx).1
      exact ⟨true, right[j], hx, List.getElem?_eq_getElem (h ▸ hlt), Bool.true_or _⟩
    · have hlt := (List.getElem?_eq_some_iff.mp hy).1
      exact ⟨left[j], true, List.getElem?_eq_getElem (h ▸ hlt), hy, Bool.or_true _⟩

theorem reached_either {a b : Expression} :
    Reached a.Matches bs marks j ∨ Reached b.Matches bs marks j ↔
      Reached (either a b).Matches bs marks j := by
  constructor
  · rintro (⟨front, ys, back, hbs, hmark, hys, hj⟩ | ⟨front, ys, back, hbs, hmark, hys, hj⟩)
    · exact ⟨front, ys, back, hbs, hmark, .left hys, hj⟩
    · exact ⟨front, ys, back, hbs, hmark, .right hys, hj⟩
  · rintro ⟨front, ys, back, hbs, hmark, hys, hj⟩
    cases hys with
    | left hys => exact .inl ⟨front, ys, back, hbs, hmark, hys, hj⟩
    | right hys => exact .inr ⟨front, ys, back, hbs, hmark, hys, hj⟩

theorem reached_congr {matched matched' : List UInt8 → Prop}
    (h : ∀ ys, matched ys ↔ matched' ys) :
    Reached matched bs marks j ↔ Reached matched' bs marks j := by
  simp only [Reached, h]

/-- The marks behind an expression are where its matches end that start at a mark. -/
theorem step_eq_true (h : marks.length = bs.length + 1) (e : Expression) :
    (step bs e marks)[j]? = some true ↔ Reached e.Matches bs marks j := by
  induction e generalizing marks j with
  | empty =>
    rw [step]
    constructor
    · intro hmark
      have hle : j ≤ bs.length := by
        have hlt := (List.getElem?_eq_some_iff.mp hmark).1
        omega
      refine ⟨bs.take j, [], bs.drop j, (List.take_append_drop j bs).symm, ?_, .empty, ?_⟩
      · rwa [List.length_take_of_le hle]
      · rw [List.length_take_of_le hle, List.length_nil, Nat.add_zero]
    · rintro ⟨front, ys, back, -, hmark, hys, rfl⟩
      cases hys
      exact hmark
  | one c =>
    refine (stepOne_eq_true c bs marks j).trans (reached_congr fun ys => ⟨?_, ?_⟩)
    · rintro ⟨b, rfl, hb⟩
      exact .one hb
    · rintro ⟨⟩
      exact ⟨_, rfl, ‹_›⟩
  | many c =>
    refine (stepMany_eq_true h).trans ((or_iff_right (by simp)).trans
      (reached_congr fun ys => ⟨.many, ?_⟩))
    rintro ⟨⟩
    assumption
  | seq a b iha ihb => exact (ihb (length_step h a)).trans (reached_seq fun k => iha h)
  | either a b iha ihb =>
    rw [step, getElem?_zipWith_or ((length_step h a).trans (length_step h b).symm), iha h, ihb h]
    exact reached_either

/-- An expression matches a whole text as its grammar says. -/
theorem isMatch_iff (e : Expression) (bs : List UInt8) : e.isMatch bs ↔ e.Matches bs := by
  have hlength : (true :: bs.map fun _ => false).length = bs.length + 1 := by simp
  have hlast : (step bs e (true :: bs.map fun _ => false)).getLast? =
      (step bs e (true :: bs.map fun _ => false))[bs.length]? := by
    rw [List.getLast?_eq_getElem?, length_step hlength, Nat.add_sub_cancel]
  rw [isMatch, decide_eq_true_eq, hlast, step_eq_true hlength]
  constructor
  · rintro ⟨front, ys, back, rfl, hmark, hys, hj⟩
    -- the only mark is at the start, so the match is all of the text
    cases front with
    | cons b front =>
      rw [List.length_cons, List.getElem?_cons_succ, List.getElem?_map] at hmark
      simp at hmark
    | nil =>
      have hback : back = [] := by
        rw [List.nil_append, List.length_append, List.length_nil] at hj
        exact List.eq_nil_of_length_eq_zero (by omega)
      rwa [hback, List.nil_append, List.append_nil]
  · intro hbs
    exact ⟨[], bs, [], by simp, rfl, hbs, by simp⟩

end Transclusion.Glob.Expression
