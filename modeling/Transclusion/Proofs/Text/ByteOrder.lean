import Mathlib.Data.Char
import Mathlib.Data.List.Lex

/-!
# The order of bytes

Texts are compared character by character. Compared byte by byte, in their UTF-8 form, they come in
the same order: a character with a greater code point has the greater bytes, at the first place
where these differ.

* `Text.utf8` — the bytes of a text;
* `Text.encode_append_lt` — a lesser character makes a lesser text, whatever follows;
* `Text.utf8_lt_utf8_iff`, `Text.toUTF8_lt_iff` — the two orders are one.
-/

namespace Transclusion.Text

/-- The bytes of a text. -/
def utf8 (cs : List Char) : List UInt8 :=
  cs.flatMap String.utf8EncodeChar

@[simp] theorem utf8_nil : utf8 [] = [] := rfl

@[simp] theorem utf8_cons (c : Char) (cs : List Char) :
    utf8 (c :: cs) = String.utf8EncodeChar c ++ utf8 cs := rfl

theorem toList_toUTF8 (text : String) : text.toUTF8.data.toList = utf8 text.toList := by
  have hbytes : text.toUTF8 = (utf8 text.toList).toByteArray := by
    conv => lhs; rw [← String.ofList_toList (s := text)]
    exact String.toByteArray_ofList
  rw [hbytes, List.toList_data_toByteArray]

theorem utf8EncodeChar_ne_nil (c : Char) : String.utf8EncodeChar c ≠ [] := by
  unfold String.utf8EncodeChar
  dsimp only
  split
  · exact List.cons_ne_nil _ _
  · split
    · exact List.cons_ne_nil _ _
    · split <;> exact List.cons_ne_nil _ _

theorem cons_ofNat_lt {m n : Nat} (hm : m < 256) (hn : n < 256) {as bs : List UInt8} :
    UInt8.ofNat m :: as < UInt8.ofNat n :: bs ↔ m < n ∨ m = n ∧ as < bs := by
  rw [List.cons_lt_cons_iff, UInt8.lt_iff_toNat_lt, ← UInt8.toNat_inj, UInt8.toNat_ofNat',
    UInt8.toNat_ofNat', Nat.mod_eq_of_lt hm, Nat.mod_eq_of_lt hn]

/-- A lesser character makes a lesser text, whatever follows. -/
theorem encode_append_lt {c d : Char} (h : c < d) (as bs : List UInt8) :
    String.utf8EncodeChar c ++ as < String.utf8EncodeChar d ++ bs := by
  have hlt : c.val.toNat < d.val.toNat := UInt32.lt_iff_toNat_lt.mp (Char.lt_def.mp h)
  have hvalid : d.val.toNat < 0x110000 := by
    have := d.valid
    omega
  unfold String.utf8EncodeChar
  dsimp only
  generalize c.val.toNat = m at hlt
  generalize d.val.toNat = n at hlt hvalid
  have hdigits : ∀ k, k / 4096 = k / 64 / 64 ∧ k / 262144 = k / 64 / 64 / 64 := fun k => by omega
  -- more bytes begin with a greater one, and as many are compared digit by digit
  split_ifs <;> simp (disch := omega) only [List.cons_append, List.nil_append, cons_ofNat_lt,
    hdigits] <;> omega

theorem utf8_lt_utf8 {cs ds : List Char} (h : cs < ds) : utf8 cs < utf8 ds := by
  induction cs generalizing ds with
  | nil =>
    cases ds with
    | nil => exact absurd h (List.not_lt_nil _)
    | cons d ds =>
      obtain ⟨b, bs, hd⟩ := List.exists_cons_of_ne_nil (utf8EncodeChar_ne_nil d)
      rw [utf8_nil, utf8_cons, hd]
      exact List.nil_lt_cons b _
  | cons c cs ih =>
    cases ds with
    | nil => exact absurd h (List.not_lt_nil _)
    | cons d ds =>
      rcases List.cons_lt_cons_iff.mp h with hlt | ⟨rfl, hlt⟩
      · exact encode_append_lt hlt _ _
      · rw [utf8_cons, utf8_cons]
        exact List.append_left_lt (ih hlt)

/-- The order of characters is that of bytes. -/
theorem utf8_lt_utf8_iff {cs ds : List Char} : utf8 cs < utf8 ds ↔ cs < ds := by
  refine ⟨fun h => ?_, utf8_lt_utf8⟩
  by_contra hge
  rcases List.le_iff_lt_or_eq.mp (List.not_lt.mp hge) with hgt | rfl
  · exact List.lt_asymm h (utf8_lt_utf8 hgt)
  · exact List.lt_irrefl _ h

/-- Texts are in the order of their bytes. -/
theorem toUTF8_lt_iff {a b : String} :
    a.toUTF8.data.toList < b.toUTF8.data.toList ↔ a < b := by
  rw [toList_toUTF8, toList_toUTF8, utf8_lt_utf8_iff, String.lt_iff]

end Transclusion.Text
