import RowStore.Bytes.Basic

/-!
# UTF-8 text

Writing text as UTF-8 and reading bytes that may not be UTF-8. The reader is a byte-at-a-time machine that
never fails: every maximal part that cannot be completed to a character becomes one U+FFFD, and the byte that
broke it off is read afresh.
-/

namespace RowStore.Text

def utf8 (s : String) : Bytes := s.toList.flatMap String.utf8EncodeChar

def replacement : Char := '\uFFFD'

/-- What a reader has seen of a character. -/
inductive Progress where
  | idle
  /-- Inside a character: `missing + 1` more bytes, `high` the bits read so far, and the range that the next
  byte must lie in. -/
  | inside (missing high : Nat) (low top : UInt8)

/-- What a byte means where a character may begin: a character, a broken part, or the first byte of a longer
character. The ranges of the second byte leave out overlong forms, surrogates and numbers past U+10FFFF. -/
def lead (b : UInt8) : List Char × Progress :=
  let n := b.toNat
  if n < 0x80 then ([Char.ofNat n], .idle)
  else if n < 0xC2 then ([replacement], .idle)
  else if n < 0xE0 then ([], .inside 0 (n - 0xC0) 0x80 0xBF)
  else if n = 0xE0 then ([], .inside 1 0 0xA0 0xBF)
  else if n = 0xED then ([], .inside 1 0xD 0x80 0x9F)
  else if n < 0xF0 then ([], .inside 1 (n - 0xE0) 0x80 0xBF)
  else if n = 0xF0 then ([], .inside 2 0 0x90 0xBF)
  else if n < 0xF4 then ([], .inside 2 (n - 0xF0) 0x80 0xBF)
  else if n = 0xF4 then ([], .inside 2 4 0x80 0x8F)
  else ([replacement], .idle)

def readFrom : Progress → Bytes → List Char
  | .idle, [] => []
  | .inside .., [] => [replacement]
  | .idle, b :: rest => (lead b).1 ++ readFrom (lead b).2 rest
  | .inside missing high low top, b :: rest =>
    if low ≤ b ∧ b ≤ top then
      let bits := high * 64 + b.toNat % 64
      match missing with
      | 0 => Char.ofNat bits :: readFrom .idle rest
      | missing + 1 => readFrom (.inside missing bits 0x80 0xBF) rest
    else replacement :: ((lead b).1 ++ readFrom (lead b).2 rest)

/-- The characters of a byte string, U+FFFD for each maximal part that is not UTF-8. -/
def readUtf8 (bs : Bytes) : List Char := readFrom .idle bs

/-- A text without the spaces (U+0020 only) at its end. -/
def dropPadding (cs : List Char) : List Char := (cs.reverse.dropWhile (· = ' ')).reverse

end RowStore.Text
