import Mathlib.Data.Nat.Digits.Defs
import QualityGate.Text.Basic

/-! How texts and numbers are written. The bytes of a text stand for the text, and the decimal
digits of a number for the number. -/
namespace QualityGate.Text

theorem fromUTF8?_toUTF8 (s : String) : String.fromUTF8? s.toUTF8 = some s := by
  rw [String.toUTF8_eq_toByteArray, String.fromUTF8?, dif_pos s.isValidUTF8]
  rfl

theorem isDigit_of_mem_toDigits {n : Nat} {c : Char} (h : c ∈ Nat.toDigits 10 n) :
    isDigit c := by
  have hdigit := Nat.isDigit_of_mem_toDigits (by decide) (by decide) h
  simpa [Char.isDigit, isDigit, UInt32.le_iff_toNat_le] using hdigit

theorem numeral_toDigits (n : Nat) : numeral 10 (Nat.toDigits 10 n) = n := by
  have hvalue : ∀ ds : List Char, (∀ c ∈ ds, isDigit c) → ∀ m,
      ds.foldl (fun n c => n * 10 + (hexValue? c).getD 0) m = Nat.ofDigitChars 10 ds m := by
    intro ds hds
    induction ds with
    | nil => intro m; rfl
    | cons c ds ih =>
      intro m
      have hc : hexValue? c = some (c.toNat - '0'.toNat) := by
        rw [hexValue?, if_pos (hds c List.mem_cons_self)]
      rw [List.foldl_cons, ih (fun d hd => hds d (List.mem_cons_of_mem _ hd)), hc,
        Nat.ofDigitChars_cons, Option.getD_some, Nat.mul_comm]
  rw [numeral, hvalue _ (fun c hc => isDigit_of_mem_toDigits hc), Nat.ofDigitChars_ten_toDigits]

theorem toList_toString (n : Int) : (toString n).toList =
    if n < 0 then '-' :: Nat.toDigits 10 n.natAbs else Nat.toDigits 10 n.natAbs := by
  cases n with
  | ofNat m =>
    show (toString m).toList = _
    rw [Nat.toString_eq_ofList_toDigits, String.toList_ofList, if_neg (by simp)]
    rfl
  | negSucc m =>
    show ("-" ++ toString (m + 1)).toList = _
    rw [Nat.toString_eq_ofList_toDigits, if_pos (Int.negSucc_lt_zero m)]
    simp

end QualityGate.Text
