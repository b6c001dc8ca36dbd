import Mathlib
import Std.Data.String.ToInt
import RecordStore.Number

/-!
# Written integers

An integer is written as an optional minus sign and digits, and what was written reads back as the
same integer.
-/

namespace RecordStore

theorem isDigit_of_mem_toString {value : Nat} {character : Char}
    (hmem : character ∈ (toString value).toList) : character.isDigit = true := by
  rw [Nat.toString_eq_repr, Nat.toList_repr] at hmem
  exact Nat.isDigit_of_mem_toDigits (by decide) (by decide) hmem

theorem toString_toList_ne_nil (value : Nat) : (toString value).toList ≠ [] := by
  rw [Nat.toString_eq_repr, Nat.toList_repr]
  exact Nat.toDigits_ne_nil

theorem toString_int (value : Int) :
    toString value =
      if 0 ≤ value then toString value.toNat else "-" ++ toString (-value).toNat := by
  rw [Int.toString_eq_repr, Int.repr_eq_if]
  rfl

theorem toString_int_ofNat (value : Nat) : toString (value : Int) = toString value := by
  rw [toString_int, if_pos (Int.natCast_nonneg value), Int.toNat_natCast]

theorem ne_of_isDigit {character other : Char} (hdigit : character.isDigit = true)
    (hother : other.isDigit = false) : character ≠ other := by
  rintro rfl
  rw [hdigit] at hother
  exact Bool.noConfusion hother

namespace Decimal

theorem digitsValue?_toString (value : Nat) :
    digitsValue? (toString value).toList = some value := by
  have hdigits : (toString value).toList.all Char.isDigit = true :=
    List.all_eq_true.mpr fun _ => isDigit_of_mem_toString
  have hempty : (toString value).toList.isEmpty = false :=
    List.isEmpty_eq_false_iff.mpr (toString_toList_ne_nil value)
  unfold digitsValue?
  rw [hempty, hdigits, if_neg (by decide), ← Nat.ofDigitChars_eq_foldl, Nat.toString_eq_repr,
    Nat.toList_repr, Nat.ofDigitChars_ten_toDigits]

theorem readSigned?_toString_nat (value : Nat) :
    readSigned? (toString value).toList = some (value : Int) := by
  have hvalue := digitsValue?_toString value
  have hdigits : ∀ character ∈ (toString value).toList, character.isDigit = true :=
    fun _ => isDigit_of_mem_toString
  generalize (toString value).toList = characters at hvalue hdigits
  unfold readSigned?
  split
  · exact absurd rfl (ne_of_isDigit (hdigits '+' (by simp)) (by decide : '+'.isDigit = false))
  · exact absurd rfl (ne_of_isDigit (hdigits '-' (by simp)) (by decide : '-'.isDigit = false))
  · rw [hvalue]
    rfl

theorem readSigned?_toString (value : Int) :
    readSigned? (toString value).toList = some value := by
  rw [toString_int]
  split
  · rename_i hnonneg
    rw [readSigned?_toString_nat, Int.toNat_of_nonneg hnonneg]
  · rename_i hnegative
    have hminus : ("-" ++ toString (-value).toNat).toList =
        '-' :: (toString (-value).toNat).toList := by simp
    have hmagnitude : -((-value).toNat : Int) = value := by omega
    rw [hminus, readSigned?, digitsValue?_toString]
    exact congrArg some hmagnitude

theorem int64?_toInt (value : Int64) : int64? value.toInt = some value := by
  unfold int64?
  rw [if_pos ⟨Int64.le_toInt value, Int64.toInt_le value⟩, Int64.ofInt_toInt]

theorem readInt64?_toString (value : Int64) : readInt64? (toString value.toInt) = some value := by
  rw [readInt64?, readSigned?_toString, Option.bind_some, int64?_toInt]

end Decimal

/-! A written number holds no blanks, so nothing is trimmed before it is read. -/

namespace Text

theorem trim_eq_self {characters : List Char}
    (hblank : ∀ character ∈ characters, isBlank character = false) :
    trim characters = characters := by
  have hdrop : ∀ list : List Char, (∀ character ∈ list, isBlank character = false) →
      list.dropWhile isBlank = list := by
    intro list hlist
    cases list with
    | nil => rfl
    | cons first rest => rw [List.dropWhile_cons, hlist first (by simp)]; rfl
  unfold trim
  rw [hdrop characters hblank, hdrop characters.reverse (by simpa using hblank),
    List.reverse_reverse]

theorem isBlank_of_isDigit {character : Char} (hdigit : character.isDigit = true) :
    isBlank character = false := by
  have hbounds : 48 ≤ character.toNat ∧ character.toNat ≤ 57 := by
    simp only [Char.isDigit, Bool.and_eq_true, decide_eq_true_eq, ge_iff_le,
      UInt32.le_iff_toNat_le] at hdigit
    exact hdigit
  simp only [isBlank, blankRanges, List.any_cons, List.any_nil, Bool.or_false, Bool.or_eq_false_iff,
    Bool.and_eq_false_imp, decide_eq_true_eq, decide_eq_false_iff_not]
  omega

theorem trim_toString_int (value : Int) :
    String.ofList (trim (toString value).toList) = toString value := by
  have hnat : ∀ magnitude : Nat, ∀ character ∈ (toString magnitude).toList,
      isBlank character = false :=
    fun _ _ hmem => isBlank_of_isDigit (isDigit_of_mem_toString hmem)
  rw [trim_eq_self, String.ofList_toList]
  rw [toString_int]
  split
  · exact hnat _
  · intro character hmem
    rw [String.toList_append, List.mem_append] at hmem
    rcases hmem with hminus | hdigit
    · have hsign : character = '-' := by simpa using hminus
      rw [hsign]
      decide
    · exact hnat _ _ hdigit

end Text

namespace Number

theorem parse?_toString (value : Int64) :
    parse? (toString value.toInt) = some (.integer value) := by
  unfold parse?
  rw [Text.trim_toString_int]
  simp only [Decimal.readInt64?_toString]

theorem parse?_text_integer (value : Int64) :
    parse? (Number.integer value).text = some (.integer value) :=
  parse?_toString value

end Number

end RecordStore
