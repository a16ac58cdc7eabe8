import RowStore.Proofs.PageImage
import RowStore.Proofs.RecordCodec

/-!
# Reads that check every access

A row, a page and a log are read by position: the reader computes where a piece begins and how long it is, and takes
it out of the bytes without asking whether they go that far. Here the same reads are made with an access that fails
where bytes are missing, and the log's loop with a limit on its passes. No access fails and the passes suffice,
whatever the bytes are, so both ways of reading agree.
-/

namespace RowStore

/-- The `count` bytes from `start` on, if all of them are there. -/
def Bytes.slice? (bs : Bytes) (start count : Nat) : Option Bytes :=
  if start + count ≤ bs.length then some ((bs.drop start).take count) else none

theorem Bytes.slice?_of_le {bs : Bytes} {start count : Nat} (h : start + count ≤ bs.length) :
    bs.slice? start count = some ((bs.drop start).take count) := if_pos h

namespace Tuple

/-- Reads the cells of columns, the first of which begins at `offset`. The outer `none` is an access behind the end; the
inner one is a cell that is cut short. -/
def cellsWithin (bs : Bytes) : (offset : Nat) → List Column → Option (Option (List Value))
  | _, [] => some (some [])
  | offset, c :: rest => do
    let tail ← bs.slice? offset (bs.length - offset)
    match Value.decode c.type tail with
    | none => return none
    | some v => return (← cellsWithin bs (offset + c.type.width) rest).map (v :: ·)

def decodeWithin (schema : Schema) (bs : Bytes) : Option (Option Tuple) :=
  if bs.length < schema.width then some none
  else (cellsWithin bs 0 schema.columns).map (Option.map fun values => ⟨schema, values, none⟩)

theorem cellsWithin_eq {bs : Bytes} {offset : Nat} {columns : List Column}
    (h : offset + Bytes.total (·.type.width) columns ≤ bs.length) :
    cellsWithin bs offset columns = some (decodeCells columns (bs.drop offset)) := by
  induction columns generalizing offset with
  | nil => rfl
  | cons c rest ih =>
    rw [Bytes.total] at h
    have htail : bs.slice? offset (bs.length - offset) = some (bs.drop offset) := by
      rw [Bytes.slice?_of_le (by omega), List.take_of_length_le (Nat.le_of_eq List.length_drop)]
    rw [cellsWithin, decodeCells, htail]
    simp only [Option.bind_eq_bind, Option.bind_some]
    cases Value.decode c.type (bs.drop offset) with
    | none => rfl
    | some v =>
      have hrest : cellsWithin bs (offset + c.type.width) rest =
          some (decodeCells rest (bs.drop (offset + c.type.width))) := ih (by omega)
      simp only [hrest, Option.bind_some, List.drop_drop]
      rfl

theorem decodeWithin_eq (schema : Schema) (bs : Bytes) : decodeWithin schema bs = some (decode schema bs) := by
  unfold decodeWithin decode
  split
  · rfl
  · rename_i hlong
    rw [cellsWithin_eq (by rw [Nat.zero_add]; exact Nat.le_of_not_lt hlong)]
    rfl

end Tuple

namespace Bits

theorem getElem?_ofBytes (bs : Bytes) (i : Nat) :
    (ofBytes bs)[i]? = (bs[i / 8]?).map fun b => b.toNat.testBit (i % 8) := by
  induction bs generalizing i with
  | nil => rfl
  | cons b rest ih =>
    have hcons : ofBytes (b :: rest) = ofByte b ++ ofBytes rest := List.flatMap_cons
    rw [hcons]
    rcases Nat.lt_or_ge i 8 with hlt | hge
    · have hdiv : i / 8 = 0 := Nat.div_eq_of_lt hlt
      rw [List.getElem?_append_left (by rwa [length_ofByte]), hdiv, Nat.mod_eq_of_lt hlt, ofByte, List.getElem?_map,
        List.getElem?_range hlt]
      rfl
    · have hdiv : i / 8 = (i - 8) / 8 + 1 := by omega
      have hmod : i % 8 = (i - 8) % 8 := by omega
      rw [List.getElem?_append_right (by rwa [length_ofByte]), length_ofByte, ih, hdiv, hmod]
      rfl

end Bits

namespace Page

variable {id : PageId} {schema : Schema} {image header : Bytes}

def slotWithin (id : PageId) (schema : Schema) (image header : Bytes) (slot : Nat) :
    Option (Except StorageError (Option Tuple)) := do
  let bits ← header[slot / 8]?
  if bits.toNat.testBit (slot % 8) then
    let row ← Tuple.decodeWithin schema (← image.slice? (header.length + slot * schema.width) schema.width)
    return match row with
      | some t => .ok (some (t.withRecord ⟨id, slot⟩))
      | none => .error (.schemaMismatch (.unreadable slot id))
  else return .ok none

/-- Reads `left` slots, the first of them being slot `slot`. -/
def slotsWithin (id : PageId) (schema : Schema) (image header : Bytes) :
    (slot left : Nat) → Option (Except StorageError (List (Option Tuple)))
  | _, 0 => some (.ok [])
  | slot, left + 1 => do
    match ← slotWithin id schema image header slot with
    | .error err => return .error err
    | .ok cell => return (← slotsWithin id schema image header (slot + 1) left).map (cell :: ·)

/-- Reads a page from an image of at least the page size. -/
def decodeWithin (pageSize : Nat) (id : PageId) (schema : Schema) (data : Bytes) : Option (Except StorageError Page) :=
  if data.length < pageSize then some (.error (.pageNotFound id))
  else do
    let image ← data.slice? 0 pageSize
    let header ← image.slice? 0 (schema.headerSize pageSize)
    let slots ← slotsWithin id schema image header 0 (schema.slotCount pageSize)
    return slots.map fun slots => ⟨id, schema, pageSize, Bits.ofBytes header, slots, none, image⟩

theorem slotWithin_eq {slot : Nat} (hbit : slot < 8 * header.length)
    (hcell : header.length + slot * schema.width + schema.width ≤ image.length) :
    slotWithin id schema image header slot = some
      (if (Bits.ofBytes header).getD slot false then
        match Tuple.decode schema ((image.drop (header.length + slot * schema.width)).take schema.width) with
        | some t => .ok (some (t.withRecord ⟨id, slot⟩))
        | none => .error (.schemaMismatch (.unreadable slot id))
      else .ok none) := by
  have hlt : slot / 8 < header.length := by omega
  have hbits : (Bits.ofBytes header).getD slot false = header[slot / 8].toNat.testBit (slot % 8) := by
    rw [List.getD_eq_getElem?_getD, Bits.getElem?_ofBytes, List.getElem?_eq_getElem hlt]
    rfl
  rw [slotWithin, hbits, List.getElem?_eq_getElem hlt, Bytes.slice?_of_le hcell]
  simp only [Option.bind_eq_bind, Option.bind_some, Tuple.decodeWithin_eq, Option.pure_def]
  split <;> rfl

theorem slotsWithin_eq (left slot : Nat) (hbits : slot + left ≤ 8 * header.length)
    (hcells : header.length + (slot + left) * schema.width ≤ image.length) :
    slotsWithin id schema image header slot left = some
      (readSlots id schema slot (((Bits.ofBytes header).drop slot).take left)
        (image.drop (header.length + slot * schema.width))) := by
  induction left generalizing slot with
  | zero => rfl
  | succ left ih =>
    have hnext : slot + (left + 1) = slot + 1 + left := by omega
    have hwidth : (slot + 1) * schema.width = slot * schema.width + schema.width := Nat.succ_mul ..
    have hcell : header.length + slot * schema.width + schema.width ≤ image.length := by
      have hle := Nat.mul_le_mul_right schema.width (show slot + 1 ≤ slot + (left + 1) by omega)
      omega
    have hlt : slot < (Bits.ofBytes header).length := by
      rw [Bits.length_ofBytes]
      omega
    have hdrop : (Bits.ofBytes header).drop slot =
        (Bits.ofBytes header).getD slot false :: (Bits.ofBytes header).drop (slot + 1) := by
      rw [List.drop_eq_getElem_cons hlt, List.getD_eq_getElem?_getD, List.getElem?_eq_getElem hlt, Option.getD_some]
    rw [slotsWithin, slotWithin_eq (by omega) hcell, hdrop, List.take_succ_cons, readSlots]
    have hrest := ih (slot + 1) (by omega) (by rwa [← hnext])
    rw [hwidth, ← Nat.add_assoc, ← List.drop_drop (l := image)] at hrest
    simp only [Option.bind_eq_bind, Option.bind_some]
    generalize (if (Bits.ofBytes header).getD slot false = true then _ else _ :
      Except StorageError (Option Tuple)) = cell
    cases cell with
    | error err => rfl
    | ok cell =>
      rw [hrest]
      rfl

/-- The header and the slots lie in the page, so no access fails. -/
theorem decodeWithin_eq (size : Nat) (id : PageId) (schema : Schema) (data : Bytes) :
    decodeWithin size id schema data = some (decode size id schema data) := by
  have hfit := schema.slots_fit size
  have hheader := schema.slotCount_le_header size
  unfold decodeWithin decode
  split
  · rfl
  · rename_i hlong
    have himage : (data.take size).length = size := by
      rw [List.length_take]
      omega
    have hlength : ((data.take size).take (schema.headerSize size)).length = schema.headerSize size := by
      rw [List.length_take, himage]
      omega
    have hslots : slotsWithin id schema (data.take size) ((data.take size).take (schema.headerSize size)) 0
        (schema.slotCount size) = _ := slotsWithin_eq (schema.slotCount size) 0
      (by rw [hlength]; omega) (by rw [hlength, himage, Nat.zero_add]; exact hfit)
    rw [hlength, Nat.zero_mul, Nat.add_zero, List.drop_zero] at hslots
    rw [Bytes.slice?_of_le (by omega), List.drop_zero]
    simp only [Option.bind_eq_bind, Option.bind_some]
    rw [Bytes.slice?_of_le (by omega), List.drop_zero, Option.bind_some, hslots]
    simp only [Option.bind_some]
    cases readSlots id schema 0 _ _ <;> rfl

end Page

namespace UpdateRecord

/-- Reads the record at position `pos` and tells where the next one begins. -/
def decodeWithin (bs : Bytes) (whole pos : Nat) : Option (Except LogDamage (UpdateRecord × Nat)) :=
  if bs.length - pos < headerSize then some (.error (.header whole))
  else do
    let txn ← bs.slice? pos 8
    let table ← bs.slice? (pos + 8) 4
    let number ← bs.slice? (pos + 12) 4
    let beforeLength := Bytes.toNat (← bs.slice? (pos + 16) 4)
    let afterLength := Bytes.toNat (← bs.slice? (pos + 20) 4)
    let images := pos + headerSize
    if bs.length - images < beforeLength + afterLength then return .error (.images whole)
    else
      let before ← bs.slice? images beforeLength
      let after ← bs.slice? (images + beforeLength) afterLength
      return .ok (⟨⟨Bytes.toNat txn⟩, ⟨⟨Bytes.toNat table⟩, Bytes.toNat number⟩, before, after⟩,
        images + beforeLength + afterLength)

/-- Reads the records from position `pos` on in so many passes at most. -/
def readWithin (bs : Bytes) : (passes whole pos : Nat) → Option (Except LogDamage (List UpdateRecord))
  | 0, _, _ => none
  | passes + 1, whole, pos =>
    if bs.length ≤ pos then some (.ok [])
    else do
      match ← decodeWithin bs whole pos with
      | .error damage => return .error damage
      | .ok (r, next) => return (← readWithin bs passes (whole + 1) next).map (r :: ·)

theorem decodeWithin_cases {bs : Bytes} {pos : Nat} (h : pos ≤ bs.length) (whole : Nat) :
    (∃ damage, decodeWithin bs whole pos = some (.error damage) ∧ decode whole (bs.drop pos) = .error damage) ∨
      ∃ r next, decodeWithin bs whole pos = some (.ok (r, next)) ∧
        decode whole (bs.drop pos) = .ok (r, bs.drop next) ∧ pos + headerSize ≤ next ∧ next ≤ bs.length := by
  have hsize : headerSize = 24 := rfl
  unfold decodeWithin decode
  rw [List.length_drop]
  by_cases hheader : bs.length - pos < headerSize
  · rw [if_pos hheader, if_pos hheader]
    exact .inl ⟨_, rfl, rfl⟩
  · have hfield : ∀ offset width, offset + width ≤ headerSize →
        ∃ part, bs.slice? (pos + offset) width = some part ∧ Bytes.toNat part = field (bs.drop pos) offset width :=
      fun offset width hle => ⟨_, Bytes.slice?_of_le (by omega), by rw [field, List.drop_drop]⟩
    obtain ⟨txn, htxn, hn₁⟩ := hfield 0 8 (by decide)
    obtain ⟨table, htable, hn₂⟩ := hfield 8 4 (by decide)
    obtain ⟨number, hnumber, hn₃⟩ := hfield 12 4 (by decide)
    obtain ⟨before, hbefore, hn₄⟩ := hfield 16 4 (by decide)
    obtain ⟨after, hafter, hn₅⟩ := hfield 20 4 (by decide)
    rw [Nat.add_zero] at htxn
    rw [if_neg hheader, if_neg hheader, htxn, htable, hnumber, hbefore, hafter]
    simp only [Option.bind_eq_bind, Option.bind_some, hn₁, hn₂, hn₃, hn₄, hn₅, List.length_drop, Nat.sub_sub]
    generalize field (bs.drop pos) 16 4 = beforeLength
    generalize field (bs.drop pos) 20 4 = afterLength
    by_cases himages : bs.length - (pos + headerSize) < beforeLength + afterLength
    · rw [if_pos himages, if_pos himages]
      exact .inl ⟨_, rfl, rfl⟩
    · rw [if_neg himages, if_neg himages, Bytes.slice?_of_le (by omega), Option.bind_some,
        Bytes.slice?_of_le (by omega)]
      refine .inr ⟨_, _, rfl, ?_, by omega, by omega⟩
      simp only [List.drop_drop, Nat.add_assoc]

/-- Every pass takes a header's worth of bytes at least, so that the limit is never reached. -/
theorem readWithin_eq {bs : Bytes} {pos passes : Nat} (h : pos ≤ bs.length)
    (hpasses : bs.length < pos + passes * headerSize) (whole : Nat) :
    readWithin bs passes whole pos = some (readFrom whole (bs.drop pos)) := by
  induction passes generalizing pos whole with
  | zero => omega
  | succ passes ih =>
    rw [readWithin]
    by_cases hend : bs.length ≤ pos
    · rw [if_pos hend, List.drop_eq_nil_of_le hend, readFrom]
      rfl
    · rw [if_neg hend]
      rcases decodeWithin_cases h whole with ⟨damage, hread, hdecode⟩ | ⟨r, next, hread, hdecode, hge, hle⟩
      · rw [hread, readFrom_of_error (fun hnil => hend (List.drop_eq_nil_iff.mp hnil)) hdecode]
        rfl
      · rw [Nat.succ_mul] at hpasses
        rw [hread, readFrom_of_ok hdecode]
        simp only [Option.bind_eq_bind, Option.bind_some, ih hle (by omega) (whole + 1)]
        rfl

/-- All records of a log are read within its bytes, in as many passes as headers would fit and one more. -/
theorem readWithin_all (bs : Bytes) : readWithin bs (bs.length / headerSize + 1) 0 0 = some (readFrom 0 bs) := by
  have hlt : bs.length < 0 + (bs.length / headerSize + 1) * headerSize := by
    have hsize : headerSize = 24 := rfl
    rw [hsize]
    omega
  rw [readWithin_eq (Nat.zero_le _) hlt 0, List.drop_zero]

end UpdateRecord

end RowStore
