/-!
# Decimal and hexadecimal numbers

How a 32-bit integer is written, and which texts are read as one.  Writing is canonical: no
leading zeros, a minus sign for negative numbers only.  Reading is more generous and accepts one
sign of either kind and any number of leading zeros, as long as the value fits.
-/

namespace SnippetLang.Text

/-- Whether a character is one of the ten ASCII digits. -/
def isDigit (c : Char) : Bool := '0' ≤ c && c ≤ '9'

/-- The value of a string of digits. -/
def digitsValue (digits : List Char) : Nat := Nat.ofDigitChars 10 digits 0

/-- The largest 32-bit integer. -/
def maxInt : Nat := 2147483647

/-- A number in decimal, with a minus sign if it is negative. -/
def writeInt (n : Int32) : List Char :=
  let value := n.toInt
  if value < 0 then '-' :: Nat.toDigits 10 value.natAbs else Nat.toDigits 10 value.natAbs

/-- The number that a nonempty string of digits denotes under a sign, if it fits. -/
def readDigits? (negative : Bool) (digits : List Char) : Option Int32 :=
  if digits.isEmpty || !digits.all isDigit then
    none
  else
    let magnitude : Int := digitsValue digits
    let value := if negative then -magnitude else magnitude
    if -2147483648 ≤ value ∧ value ≤ 2147483647 then some (Int32.ofInt value) else none

/-- The number that a text denotes: an optional sign and then digits, nothing around them. -/
def readInt? : List Char → Option Int32
  | '-' :: digits => readDigits? true digits
  | '+' :: digits => readDigits? false digits
  | digits => readDigits? false digits

/-- A number in lower-case hexadecimal, padded with zeros on the left up to a width. -/
def hexadecimal (width n : Nat) : String :=
  let digits := Nat.toDigits 16 n
  String.ofList (List.replicate (width - digits.length) '0' ++ digits)

end SnippetLang.Text
