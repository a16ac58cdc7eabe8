import RowStore.Page.Layout
import RowStore.Tuple

/-!
# Heap pages

A page of a table in memory: which slots are taken, what lies in them, who changed it last, and its image as of the
last commit. Occupancy is known twice, from the header bits and from the slots; storing and removing a row
go by the bits and keep both.
-/

namespace RowStore

structure Page where
  id : PageId
  schema : Schema
  /-- The bytes of the image, fixed when the page was read. -/
  size : Nat
  /-- The header bits, eight for each header byte. Bits past the last slot mean nothing and are kept. -/
  header : List Bool
  slots : List (Option Tuple)
  /-- The transaction whose changes have not been written to the file. -/
  dirtier : Option TxnId
  /-- The image as of the last commit. -/
  beforeImage : Bytes
deriving DecidableEq

namespace Page

def emptyImage (pageSize : Nat) : Bytes := Bytes.zeros pageSize

/-- Reads the slots whose bits are given, the first of them being slot `slot`, from the bytes that follow. -/
def readSlots (id : PageId) (schema : Schema) :
    (slot : Nat) → List Bool → Bytes → Except StorageError (List (Option Tuple))
  | _, [], _ => .ok []
  | slot, taken :: rest, bs =>
    let cell : Except StorageError (Option Tuple) :=
      if taken then
        match Tuple.decode schema (bs.take schema.width) with
        | some t => .ok (some (t.withRecord ⟨id, slot⟩))
        | none => .error (.schemaMismatch (.unreadable slot id))
      else .ok none
    match cell with
    | .error e => .error e
    | .ok cell => (readSlots id schema (slot + 1) rest (bs.drop schema.width)).map (cell :: ·)

/-- Reads a page from an image of at least the page size; what follows is ignored. The page is clean, and its
image is its baseline. -/
def decode (pageSize : Nat) (id : PageId) (schema : Schema) (data : Bytes) : Except StorageError Page :=
  if data.length < pageSize then .error (.pageNotFound id)
  else
    let image := data.take pageSize
    let headerSize := schema.headerSize pageSize
    let header := Bits.ofBytes (image.take headerSize)
    match readSlots id schema 0 (header.take (schema.slotCount pageSize)) (image.drop headerSize) with
    | .error e => .error e
    | .ok slots => .ok ⟨id, schema, pageSize, header, slots, none, image⟩

def headerSize (p : Page) : Nat := p.header.length / 8

/-- The bytes of one slot, zeros when it is free. -/
def slotImage (schema : Schema) : Option Tuple → Bytes
  | some t => t.encode
  | none => Bytes.zeros schema.width

/-- The image of the page, exactly as long as its size. -/
def encode (p : Page) : Bytes :=
  Bytes.fit p.size (Bits.toBytes p.headerSize p.header ++ p.slots.flatMap (slotImage p.schema))

@[simp] theorem length_encode (p : Page) : p.encode.length = p.size := Bytes.length_fit _ _

def isTaken (p : Page) (slot : Nat) : Bool := slot < p.slots.length && p.header.getD slot false

def freeSlots (p : Page) : Nat := p.slots.countP Option.isNone

def firstFree? (p : Page) : Option Nat := (p.header.take p.slots.length).findIdx? (· = false)

/-- Stores a row of the page's schema in the first free slot. -/
def insert (p : Page) (t : Tuple) : Except StorageError (Page × RecordId) :=
  if t.schema ≠ p.schema then .error (.schemaMismatch (.page t.schema p.schema))
  else
    match p.firstFree? with
    | none => .error (.pageFull p.id)
    | some slot =>
      let record : RecordId := ⟨p.id, slot⟩
      .ok ({ p with header := p.header.set slot true
                    slots := p.slots.set slot (some (t.withRecord record)) }, record)

/-- Frees the slot that a record id names. Only the record id counts, not what the slot holds. -/
def delete (p : Page) (record : Option RecordId) : Except StorageError Page :=
  match record with
  | none => .error .missingRecordId
  | some record =>
    if record.page ≠ p.id then .error (.tupleNotOnPage record p.id)
    else if p.slots.length ≤ record.slot then .error (.invalidSlotId record.slot p.slots.length)
    else if !p.isTaken record.slot then .error (.noSuchTuple record)
    else .ok { p with header := p.header.set record.slot false, slots := p.slots.set record.slot none }

def tuple? (p : Page) (slot : Nat) : Option Tuple := (p.slots[slot]?).join

def tuples (p : Page) : List Tuple := p.slots.filterMap fun slot => slot

def markDirty (p : Page) (txn : Option TxnId) : Page := { p with dirtier := txn }

def isDirty (p : Page) : Bool := p.dirtier.isSome

def setBeforeImage (p : Page) : Page := { p with beforeImage := p.encode }

end Page

end RowStore
