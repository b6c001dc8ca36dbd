import RecordStore.Decimal.Shortest

/-!
# How doubles are written

`Notation.plain` is the form of numbers in stored attributes and messages, `Notation.json` the form
in JSON text.
-/

namespace RecordStore.Decimal

/-- A way to write doubles. -/
structure Notation where
  tie : Tie
  /-- The places of the decimal point that are written without an exponent. -/
  positional : Int → Bool
  /-- What follows a whole number written without an exponent. -/
  wholeSuffix : String

namespace Notation

/-- Never an exponent, and nothing after a whole number. -/
def plain : Notation where
  tie := .away
  positional := fun _ => true
  wholeSuffix := ""

/-- Plain digits from `0.00001` up to below `10 ^ 16`, and always a fraction or an exponent. -/
def json : Notation where
  tie := .toEven
  positional := fun point => decide (-4 ≤ point ∧ point ≤ 16)
  wholeSuffix := ".0"

private def zeros (count : Nat) : String :=
  String.ofList (List.replicate count '0')

private def splitAt (digits : String) (count : Nat) : String × String :=
  (String.ofList (digits.toList.take count), String.ofList (digits.toList.drop count))

def positionalText (form : Notation) (digits : Digits) : String :=
  if digits.point ≤ 0 then
    "0." ++ zeros (-digits.point).toNat ++ digits.digits
  else if digits.digits.length ≤ digits.point.toNat then
    digits.digits ++ zeros (digits.point.toNat - digits.digits.length) ++ form.wholeSuffix
  else
    let (whole, fraction) := splitAt digits.digits digits.point.toNat
    whole ++ "." ++ fraction

def exponentText (digits : Digits) : String :=
  let (first, rest) := splitAt digits.digits 1
  let exponent := digits.point - 1
  first ++ (if rest.isEmpty then "" else "." ++ rest) ++ "e" ++
    (if exponent < 0 then "-" else "+") ++ toString exponent.natAbs

def magnitudeText (form : Notation) (value : Float) : String :=
  if value == 0.0 then "0" ++ form.wholeSuffix
  else
    let digits := Digits.shortest value form.tie
    if form.positional digits.point then form.positionalText digits else exponentText digits

def text (form : Notation) (value : Float) : String :=
  if value.isNaN then "NaN"
  else
    (if Binary64.isNegative value then "-" else "") ++
      (if value.isInf then "inf" else form.magnitudeText value)

end Notation

end RecordStore.Decimal
