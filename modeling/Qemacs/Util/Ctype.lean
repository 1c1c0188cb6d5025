import Mathlib.Data.List.Basic

/-!
# Character classes

The classes of `util.h` that the scanners use, on bytes. The functions of the source take a
`char32_t`; a byte of 128 or more, passed as a `char`, arrives there as a number above every
bound, and as itself when passed as an unsigned byte. It is in none of the classes either way,
except that an unsigned 160 is a space.
-/

namespace Qemacs

/-- A character constant of the source. -/
def ascii (c : Char) : UInt8 := UInt8.ofNat c.toNat

/-- A string constant of the source. -/
def asciiString (s : String) : List UInt8 := s.toList.map ascii

def qeInrange (c a b : UInt8) : Bool := a ≤ c && c ≤ b

def qeIsspace (c : UInt8) : Bool := c == 32 || c == 9 || c == 10 || c == 13 || c == 160

def qeIsdigit (c : UInt8) : Bool := qeInrange c (ascii '0') (ascii '9')

def qeIsoctdigit (c : UInt8) : Bool := qeInrange c (ascii '0') (ascii '7')

/-- `qe_isalpha`: the bit of the lower case letters is set first. -/
def qeIsalpha (c : UInt8) : Bool := qeInrange (c ||| 32) (ascii 'a') (ascii 'z')

/-- `qe_isalpha_`. -/
def qeIsalpha' (c : UInt8) : Bool := qeIsalpha c || c == ascii '_'

/-- `qe_digit_value`: the table `qe_digit_value__`, and 255 from 128 on. -/
def qeDigitValue (c : UInt8) : Nat :=
  if qeIsdigit c then c.toNat - 48
  else if qeInrange c (ascii 'A') (ascii 'Z') then c.toNat - 55
  else if qeInrange c (ascii 'a') (ascii 'z') then c.toNat - 87
  else 255

def qeIsxdigit (c : UInt8) : Bool := qeDigitValue c < 16

/-- `qe_isalnum_`. -/
def qeIsalnum' (c : UInt8) : Bool := qeDigitValue c < 36 || c == ascii '_'

end Qemacs
