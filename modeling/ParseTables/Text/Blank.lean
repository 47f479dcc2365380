namespace ParseTables.Text

/-- Whether a character is a blank, that is, has Unicode's property `White_Space`. The separators U+001C
to U+001F, the zero-width space U+200B and the byte order mark U+FEFF do not have it. -/
def isBlank (c : Char) : Bool :=
  let code := c.toNat
  (0x9 ≤ code && code ≤ 0xD) || code == 0x20 || code == 0x85 || code == 0xA0 || code == 0x1680 ||
    (0x2000 ≤ code && code ≤ 0x200A) || code == 0x2028 || code == 0x2029 || code == 0x202F ||
    code == 0x205F || code == 0x3000

end ParseTables.Text
