import DocScript.Decimal.Shortest

/-!
# Numbers

Numbers are doubles. `Number.ofNat` is the number of a count, and there are two ways to write a
number. `Number.text` is what scripts see: whole numbers below `10 ^ 16` in
full, so that zero has no sign, and everything else as the shortest decimal that reads back.
`Number.signedText` always takes the shortest decimal and keeps the sign of zero. Neither uses an
exponent.
-/

namespace DocScript.Number

/-- The number nearest to a count. Counts stay below `2 ^ 64`. -/
def ofNat (n : Nat) : Float := (UInt64.ofNat n).toFloat

/-- Text with a minus sign in front if `negative`. -/
def signed (negative : Bool) (cs : List Char) : String :=
  String.ofList (if negative then '-' :: cs else cs)

/-- The whole number `mantissa * 2 ^ exponent`, if it is whole. -/
def whole? (mantissa : Nat) (exponent : Int) : Option Nat :=
  let up := Nat.pow 2 exponent.toNat
  let down := Nat.pow 2 (-exponent).toNat
  if mantissa % down = 0 then some (mantissa / down * up) else none

/-- The shortest text that reads back, with the sign of zero kept. -/
def signedText (x : Float) : String :=
  match Parts.ofFloat x with
  | .nan => "NaN"
  | .infinite negative => signed negative ['i', 'n', 'f']
  | .finite negative mantissa exponent =>
    signed negative (Decimal.shortest mantissa exponent).positional

/-- The text of a number as scripts print it. -/
def text (x : Float) : String :=
  match Parts.ofFloat x with
  | .finite negative mantissa exponent =>
    match whole? mantissa exponent with
    | some n =>
      if n < Nat.pow 10 16 then signed (negative && n != 0) (Nat.toDigits 10 n) else signedText x
    | none => signedText x
  | _ => signedText x

end DocScript.Number
