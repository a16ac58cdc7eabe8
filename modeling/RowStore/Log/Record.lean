import RowStore.Bytes.LittleEndian
import RowStore.Error

/-!
# Update records

What the log keeps of a page that is committed or flushed: the transaction, the page, its image as of the last commit
and its image now. On file a record is a header of 24 bytes, all numbers little-endian, and the two
images: transaction (8), table (4), page number (4), length of either image (4 and 4). The reader takes
records off the front until nothing is left and reports how many it has when one breaks off.
-/

namespace RowStore

/-- A page image pair written by a transaction. -/
structure UpdateRecord where
  txn : TxnId
  page : PageId
  before : Bytes
  after : Bytes
deriving DecidableEq

namespace UpdateRecord

def headerSize : Nat := 24

def encode (r : UpdateRecord) : Bytes :=
  Bytes.ofNat 8 r.txn.number ++ Bytes.ofNat 4 r.page.table.number ++ Bytes.ofNat 4 r.page.number ++
    Bytes.ofNat 4 r.before.length ++ Bytes.ofNat 4 r.after.length ++ r.before ++ r.after

def size (r : UpdateRecord) : Nat := headerSize + r.before.length + r.after.length

@[simp] theorem length_encode (r : UpdateRecord) : r.encode.length = r.size := by
  simp only [encode, size, headerSize, List.length_append, Bytes.length_ofNat]

/-- The number in `width` bytes from `offset`. -/
def field (bs : Bytes) (offset width : Nat) : Nat := Bytes.toNat ((bs.drop offset).take width)

/-- Reads a record off the front of a byte string and returns what follows. `whole` is the number of records before
it. -/
def decode (whole : Nat) (bs : Bytes) : Except LogDamage (UpdateRecord × Bytes) :=
  if bs.length < headerSize then .error (.header whole)
  else
    let beforeLength := field bs 16 4
    let afterLength := field bs 20 4
    let images := bs.drop headerSize
    if images.length < beforeLength + afterLength then .error (.images whole)
    else
      .ok (⟨⟨field bs 0 8⟩, ⟨⟨field bs 8 4⟩, field bs 12 4⟩, images.take beforeLength,
          (images.drop beforeLength).take afterLength⟩,
        images.drop (beforeLength + afterLength))

theorem length_rest_lt {whole : Nat} {bs rest : Bytes} {r : UpdateRecord}
    (h : decode whole bs = .ok (r, rest)) : rest.length < bs.length := by
  unfold decode at h
  split at h
  · cases h
  · rename_i hs
    simp only at h
    split at h
    · cases h
    · have hrest := congrArg Prod.snd (Except.ok.inj h)
      simp only at hrest
      subst hrest
      have h24 : headerSize = 24 := rfl
      simp only [List.length_drop]
      omega

def readFrom (whole : Nat) (bs : Bytes) : Except LogDamage (List UpdateRecord) :=
  if bs.isEmpty then .ok []
  else
    match h : decode whole bs with
    | .error damage => .error damage
    | .ok (r, rest) => (readFrom (whole + 1) rest).map (r :: ·)
termination_by bs.length
decreasing_by exact length_rest_lt h

def readAll (bs : Bytes) : Except StorageError (List UpdateRecord) :=
  match readFrom 0 bs with
  | .error damage => .error (.corruptedLog damage)
  | .ok records => .ok records

end UpdateRecord

end RowStore
