import Mathlib.Data.String.Basic
import Mathlib.Tactic.SplitIfs

/-!
The order of texts is the order of their bytes. Texts are ordered by code points, from left to
right; a code point of more digits is written with a greater first byte, and the bytes behind it are
its digits of base 64, the most significant first. So the first code point that differs decides with
the first of its bytes that does. Main statement: `lt_iff_bytes_lt`.
-/
namespace FormulaFields.Text

/-- The bytes that a text is stored as. -/
def bytes (text : String) : List UInt8 := text.toUTF8.data.toList

theorem bytes_eq (text : String) : bytes text = text.toList.flatMap String.utf8EncodeChar := by
  rw [bytes, String.toUTF8, ← String.utf8Encode_toList, List.utf8Encode, List.data_toByteArray]

/-- Four digits of base 64 decide one after the other which of two numbers is less. -/
private theorem digits_lt {v w : Nat} (less : v < w) :
    v / 262144 < w / 262144 ∨ v / 262144 = w / 262144 ∧
      (v / 4096 % 64 < w / 4096 % 64 ∨ v / 4096 % 64 = w / 4096 % 64 ∧
        (v / 64 % 64 < w / 64 % 64 ∨ v / 64 % 64 = w / 64 % 64 ∧ v % 64 < w % 64)) := by
  have digits (n : Nat) :
      n = 262144 * (n / 262144) + 4096 * (n / 4096 % 64) + 64 * (n / 64 % 64) + n % 64 := by omega
  have below (n : Nat) : n % 64 < 64 := Nat.mod_lt n (by decide)
  have v_digits := digits v
  have w_digits := digits w
  have v_low := below v
  have w_low := below w
  have v_middle := below (v / 64)
  have w_middle := below (w / 64)
  have v_high := below (v / 4096)
  have w_high := below (w / 4096)
  generalize v / 262144 = v₃, v / 4096 % 64 = v₂, v / 64 % 64 = v₁, v % 64 = v₀,
    w / 262144 = w₃, w / 4096 % 64 = w₂, w / 64 % 64 = w₁, w % 64 = w₀ at *
  omega

/-- A lesser character has lesser bytes, whatever stands behind the two. -/
private theorem utf8EncodeChar_append_lt {c d : Char} (less : c < d) (more more' : List UInt8) :
    String.utf8EncodeChar c ++ more < String.utf8EncodeChar d ++ more' := by
  have less : c.val.toNat < d.val.toNat := less
  have bound : d.val.toNat < 1114112 := by
    rcases d.valid with low | high
    · exact Nat.lt_trans low (by decide)
    · exact high.2
  simp only [String.utf8EncodeChar]
  generalize c.val.toNat = v at *
  generalize d.val.toNat = w at *
  have digits := digits_lt less
  -- One case for each pair of lengths; of unequal lengths the first byte decides.
  split_ifs <;>
    simp (disch := omega) only [List.cons_append, List.nil_append, List.cons_lt_cons_iff,
      UInt8.lt_iff_toNat_lt, UInt8.toNat_ofNat', ← UInt8.toNat_inj, Nat.reducePow,
      Nat.mod_eq_of_lt] <;> omega

private theorem flatMap_utf8EncodeChar_lt {first second : List Char} (less : first < second) :
    first.flatMap String.utf8EncodeChar < second.flatMap String.utf8EncodeChar := by
  induction first generalizing second with
  | nil =>
    cases second with
    | nil => cases less
    | cons d more =>
      have written : String.utf8EncodeChar d ≠ [] := String.utf8EncodeChar_ne_nil
      obtain ⟨byte, bytes, written⟩ := List.exists_cons_of_ne_nil written
      rw [List.flatMap_cons, written]
      exact List.nil_lt_cons _ _
  | cons c rest ih =>
    cases second with
    | nil => cases less
    | cons d more =>
      rw [List.flatMap_cons, List.flatMap_cons]
      rcases List.cons_lt_cons_iff.mp less with lesser | ⟨rfl, later⟩
      · exact utf8EncodeChar_append_lt lesser _ _
      · exact List.append_left_lt (ih later)

theorem lt_iff_bytes_lt {first second : String} : first < second ↔ bytes first < bytes second := by
  rw [bytes_eq, bytes_eq]
  refine ⟨flatMap_utf8EncodeChar_lt, fun less => ?_⟩
  -- Otherwise the second text is less or the same, and so are its bytes.
  by_contra other
  rcases lt_or_eq_of_le (String.not_lt.mp other) with behind | rfl
  · exact List.lt_asymm less (flatMap_utf8EncodeChar_lt behind)
  · exact List.lt_irrefl _ less

end FormulaFields.Text
