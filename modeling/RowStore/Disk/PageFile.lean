import RowStore.Bytes.Sparse

/-!
# Page files

A file as an array of equally sized pages: page `n` is the bytes from `n * size` on, as many as a page has. A rest
at the end that is shorter than a page counts for nothing, and appending writes over it. A page number has 32 bits, so
the count of pages starts again from zero in a file of `2 ^ 32` of them.
-/

namespace RowStore.PageFile

/-- How many page numbers there are. -/
def numbers : Nat := 1 <<< 32

def pageCount (size : Nat) (contents : SparseBytes) : Nat := contents.length / size % numbers

/-- The bytes of page `n`, if the file holds all of them. -/
def page? (size n : Nat) (contents : SparseBytes) : Option Bytes :=
  if contents.length < n * size + size then none else some ((contents.drop (n * size)).take size).toBytes

/-- The contents after page `n` of a file is written, the image being as long as a page. -/
def write (n : Nat) (image : Bytes) (contents : SparseBytes) : SparseBytes :=
  contents.overwrite (n * image.length) (.bytes image)

/-- The contents with a zero page at the place that the count of pages tells. -/
def append (size : Nat) (contents : SparseBytes) : SparseBytes :=
  contents.overwrite (pageCount size contents * size) (.zeros size)

end RowStore.PageFile
