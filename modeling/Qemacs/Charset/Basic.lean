import Mathlib.Data.List.Basic

/-!
# The charset records

`QECharset` is a table of static records, and a buffer holds a pointer to one of them; the code
tells charsets apart by comparing these pointers. The model has one constructor for each record
it covers and one function for each field the modelled code reads, so a comparison of pointers
is an equality.

The records covered are those whose characters are one byte, in the build as it is configured
(`charsetmore.c` holds one table, Mac Roman), and the two UTF-8 records.
-/

namespace Qemacs

def maxCharBytes : Nat := 6

inductive EOLType
  | unix
  | dos
  | mac
  deriving DecidableEq, Repr

/-- The charset records: `charset_raw`, `charset_8859_1`, `charset_vt100`, `charset_7bit`,
`charset_mac_roman`, `charset_utf8`, `charset_utf8x`. -/
inductive QECharset
  | raw
  | iso8859_1
  | vt100
  | ascii7bit
  | macRoman
  | utf8
  | utf8x
  deriving DecidableEq, Repr

def QECharset.charSize : QECharset → Nat
  | raw | iso8859_1 | vt100 | ascii7bit | macRoman | utf8 | utf8x => 1

/-- `eol_char`: 0x0A for ASCII. -/
def QECharset.eolChar : QECharset → UInt8
  | raw | iso8859_1 | vt100 | ascii7bit | macRoman | utf8 | utf8x => 10

end Qemacs
