/-!
# White space

The characters with the Unicode property `White_Space`, and the trimming and cutting of a command line
by them. This is a larger class than the blanks of the written language.

## Main definitions

* `isWhitespace` — the property
* `trim` — a text without the white space at its ends
* `splitFirstWord` — the first word of a text, and the rest
-/

namespace Datalog.Text

/-- The ranges of code points with the property `White_Space`. -/
def whitespaceRanges : List (Nat × Nat) :=
  [(0x09, 0x0D), (0x20, 0x20), (0x85, 0x85), (0xA0, 0xA0), (0x1680, 0x1680), (0x2000, 0x200A),
    (0x2028, 0x2029), (0x202F, 0x202F), (0x205F, 0x205F), (0x3000, 0x3000)]

/-- The character has the property `White_Space`. -/
def isWhitespace (c : Char) : Bool :=
  whitespaceRanges.any fun range => range.1 ≤ c.toNat && c.toNat ≤ range.2

/-- The text without the white space at its beginning and at its end. -/
def trim (s : List Char) : List Char :=
  ((s.dropWhile isWhitespace).reverse.dropWhile isWhitespace).reverse

/-- The text up to its first white space, and the trimmed text after it. -/
def splitFirstWord (s : List Char) : List Char × List Char :=
  (s.takeWhile fun c => !isWhitespace c, trim (s.dropWhile fun c => !isWhitespace c))

end Datalog.Text
