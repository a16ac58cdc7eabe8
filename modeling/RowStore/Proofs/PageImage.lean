import RowStore.Page.Basic
import RowStore.Proofs.RowCodec

/-!
# Page images

A page is well shaped when its header bits say which slots hold rows and every row knows its schema and its place.
It is exact when its rows also fit their columns, as rows that are built do. The image of an exact page is exactly
the header, the slots at equal distances, and zeros; it reads back as the page with its rows in stored form, and
that page has the same image. `Schema.rowAt?` finds the bytes of a row in an image from the layout alone,
without reading the page.
-/

namespace RowStore

namespace Schema

/-- The header and the slots fit into a page, whatever the width of a row. -/
theorem slots_fit (s : Schema) (size : Nat) : s.headerSize size + s.slotCount size * s.width ≤ size := by
  have h := Nat.div_mul_le_self (size * 8) (s.width * 8 + 1)
  change s.slotCount size * (s.width * 8 + 1) ≤ size * 8 at h
  rw [Nat.mul_add, Nat.mul_one, ← Nat.mul_assoc] at h
  unfold headerSize
  omega

theorem slotCount_le_header (s : Schema) (size : Nat) : s.slotCount size ≤ 8 * s.headerSize size := by
  unfold headerSize
  omega

/-- The bytes of the row in a slot of a page image, if the header has the slot taken. -/
def rowAt? (s : Schema) (size : Nat) (image : Bytes) (slot : Nat) : Option Bytes :=
  if slot < s.slotCount size ∧ (Bits.ofBytes (image.take (s.headerSize size))).getD slot false = true then
    some ((image.drop (s.headerSize size + slot * s.width)).take s.width)
  else none

end Schema

namespace Bits

theorem ofByte_toByte (bits : List Bool) (h : bits.length = 8) : ofByte (toByte bits) = bits := by
  have hall : ∀ b₀ b₁ b₂ b₃ b₄ b₅ b₆ b₇ : Bool,
      ofByte (toByte [b₀, b₁, b₂, b₃, b₄, b₅, b₆, b₇]) = [b₀, b₁, b₂, b₃, b₄, b₅, b₆, b₇] := by
    decide +kernel
  obtain ⟨b₀, b₁, b₂, b₃, b₄, b₅, b₆, b₇, rfl⟩ : ∃ b₀ b₁ b₂ b₃ b₄ b₅ b₆ b₇,
      bits = [b₀, b₁, b₂, b₃, b₄, b₅, b₆, b₇] := by
    match bits, h with
    | [b₀, b₁, b₂, b₃, b₄, b₅, b₆, b₇], _ => exact ⟨b₀, b₁, b₂, b₃, b₄, b₅, b₆, b₇, rfl⟩
  exact hall b₀ b₁ b₂ b₃ b₄ b₅ b₆ b₇

theorem ofBytes_toBytes (count : Nat) (bits : List Bool) (h : bits.length = 8 * count) :
    ofBytes (toBytes count bits) = bits := by
  induction count generalizing bits with
  | zero =>
    rw [List.eq_nil_of_length_eq_zero h]
    rfl
  | succ count ih =>
    have ht : (bits.take 8).length = 8 := by
      rw [List.length_take]
      omega
    have hd : (bits.drop 8).length = 8 * count := by
      rw [List.length_drop]
      omega
    have hcons : ofBytes (toByte (bits.take 8) :: toBytes count (bits.drop 8)) =
        ofByte (toByte (bits.take 8)) ++ ofBytes (toBytes count (bits.drop 8)) := by
      simp [ofBytes]
    rw [toBytes, hcons, ofByte_toByte _ ht, ih _ hd, List.take_append_drop]

end Bits

/-- The row as it is after its page was written and read: in stored form, in its place. -/
def Tuple.settled (t : Tuple) : Tuple := { t.stored with record := t.record }

theorem Tuple.fits_settled {t : Tuple} (h : t.Fits) : t.settled.Fits := Tuple.fits_stored h

theorem Tuple.encode_settled {t : Tuple} (h : t.Fits) : t.settled.encode = t.encode := Tuple.encode_stored h

namespace Page

/-- The header bits, the slots and the places of the rows agree. -/
structure Shaped (p : Page) : Prop where
  header_length : p.header.length = 8 * p.schema.headerSize p.size
  slots_length : p.slots.length = p.schema.slotCount p.size
  bits : p.header.take p.slots.length = p.slots.map Option.isSome
  placed : ∀ (i : Nat) (t : Tuple), p.slots[i]? = some (some t) →
    t.schema = p.schema ∧ t.record = some ⟨p.id, i⟩

/-- A well-shaped page whose rows fit their columns. -/
structure Exact (p : Page) : Prop extends Shaped p where
  fits : ∀ t, some t ∈ p.slots → t.Fits

def reread (p : Page) : Page :=
  { p with slots := p.slots.map (Option.map Tuple.settled), dirtier := none, beforeImage := p.encode }

theorem length_slotImages {schema : Schema} {slots : List (Option Tuple)}
    (h : ∀ slot ∈ slots, (slotImage schema slot).length = schema.width) :
    (slots.flatMap (slotImage schema)).length = slots.length * schema.width := by
  induction slots with
  | nil => simp
  | cons slot rest ih =>
    have hr := ih fun s hs => h s (List.mem_cons_of_mem slot hs)
    rw [List.flatMap_cons, List.length_append, hr, h slot List.mem_cons_self, List.length_cons, Nat.succ_mul,
      Nat.add_comm]

theorem slice_slotImages {schema : Schema} {slots : List (Option Tuple)} {i : Nat} {slot : Option Tuple}
    (h : ∀ slot ∈ slots, (slotImage schema slot).length = schema.width) (hi : slots[i]? = some slot)
    (rest : Bytes) :
    ((slots.flatMap (slotImage schema) ++ rest).drop (i * schema.width)).take schema.width =
      slotImage schema slot := by
  induction slots generalizing i with
  | nil => cases hi
  | cons first slots ih =>
    have hw := h first List.mem_cons_self
    cases i with
    | zero =>
      cases hi
      rw [Nat.zero_mul, List.drop_zero, List.flatMap_cons, List.append_assoc, List.take_left' hw]
    | succ i =>
      have hd : (i + 1) * schema.width = (slotImage schema first).length + i * schema.width := by
        rw [hw, Nat.succ_mul, Nat.add_comm]
      rw [List.flatMap_cons, List.append_assoc, hd, List.drop_length_add_append]
      exact ih (fun s hs => h s (List.mem_cons_of_mem first hs)) hi

/-- Slots are read one by one: a slot whose bit is set must hold a row, and the others are read from what follows. -/
theorem readSlots_cons {id : PageId} {schema : Schema} {k : Nat} {taken : Bool} {rest : List Bool} {bs : Bytes}
    {slots : List (Option Tuple)} :
    readSlots id schema k (taken :: rest) bs = .ok slots ↔
      ∃ first later, slots = first :: later ∧
        readSlots id schema (k + 1) rest (bs.drop schema.width) = .ok later ∧
        ((taken = false ∧ first = none) ∨
          (taken = true ∧ ∃ t, Tuple.decode schema (bs.take schema.width) = some t ∧
            first = some (t.withRecord ⟨id, k⟩))) := by
  rw [readSlots]
  cases hrest : readSlots id schema (k + 1) rest (bs.drop schema.width) with
  | error err =>
    refine iff_of_false (fun h => ?_) (fun ⟨_, _, _, h, _⟩ => nomatch h)
    split at h <;> cases h
  | ok later =>
    cases taken with
    | false =>
      constructor
      · rintro ⟨⟩
        exact ⟨none, later, rfl, rfl, .inl ⟨rfl, rfl⟩⟩
      · rintro ⟨_, _, rfl, ⟨⟩, ⟨-, rfl⟩ | ⟨⟨⟩, -⟩⟩
        rfl
    | true =>
      cases ht : Tuple.decode schema (bs.take schema.width) with
      | none =>
        refine iff_of_false nofun ?_
        rintro ⟨_, _, -, -, ⟨⟨⟩, -⟩ | ⟨-, _, ⟨⟩, -⟩⟩
      | some t =>
        constructor
        · rintro ⟨⟩
          exact ⟨_, later, rfl, rfl, .inr ⟨rfl, t, rfl, rfl⟩⟩
        · rintro ⟨_, _, rfl, ⟨⟩, ⟨⟨⟩, -⟩ | ⟨-, _, ⟨⟩, rfl⟩⟩
          rfl

/-- Reading the slots gives every row in stored form, in its place. -/
theorem readSlots_slotImages (id : PageId) (schema : Schema) (slots : List (Option Tuple)) (k : Nat) (rest : Bytes)
    (h : ∀ (i : Nat) (t : Tuple), slots[i]? = some (some t) →
      t.Fits ∧ t.schema = schema ∧ t.record = some ⟨id, k + i⟩) :
    readSlots id schema k (slots.map Option.isSome) (slots.flatMap (slotImage schema) ++ rest) =
      .ok (slots.map (Option.map Tuple.settled)) := by
  induction slots generalizing k with
  | nil => rfl
  | cons slot slots ih =>
    have hrest := ih (k + 1) (fun i t hi => by
      have hi' := h (i + 1) t hi
      rwa [← Nat.add_assoc, Nat.add_right_comm] at hi')
    have happ : (slot :: slots).flatMap (slotImage schema) ++ rest =
        slotImage schema slot ++ (slots.flatMap (slotImage schema) ++ rest) := by
      rw [List.flatMap_cons, List.append_assoc]
    rw [happ, List.map_cons, List.map_cons]
    cases slot with
    | none =>
      have hw : (slotImage schema none).length = schema.width := Bytes.length_zeros _
      refine readSlots_cons.mpr ⟨_, _, rfl, ?_, .inl ⟨rfl, rfl⟩⟩
      rw [List.drop_left' hw, hrest]
    | some t =>
      obtain ⟨hf, hs, hr⟩ := h 0 t rfl
      have hw : (slotImage schema (some t)).length = schema.width := by
        rw [slotImage, Tuple.length_encode hf, hs]
      have hd : Tuple.decode schema (t.encode) = some t.stored := by
        have hd := Tuple.decode_encode hf []
        rwa [List.append_nil, hs] at hd
      have hp : t.settled = t.stored.withRecord ⟨id, k⟩ := by
        rw [Nat.add_zero] at hr
        rw [Tuple.settled, Tuple.withRecord, hr]
      refine readSlots_cons.mpr ⟨_, _, rfl, ?_, .inr ⟨rfl, t.stored, ?_, congrArg some hp⟩⟩
      · rw [List.drop_left' hw, hrest]
      · rw [List.take_left' hw, slotImage, hd]

theorem Exact.width_slotImage {p : Page} (h : p.Exact) :
    ∀ slot ∈ p.slots, (slotImage p.schema slot).length = p.schema.width := by
  intro slot hs
  cases slot with
  | none => exact Bytes.length_zeros _
  | some t =>
    obtain ⟨i, hi⟩ := List.mem_iff_getElem?.mp hs
    rw [slotImage, Tuple.length_encode (h.fits t hs), (h.placed i t hi).1]

theorem Shaped.headerSize_eq {p : Page} (h : p.Shaped) : p.headerSize = p.schema.headerSize p.size := by
  rw [headerSize, h.header_length]
  omega

/-- The image of an exact page is its header, its slots and zeros. -/
theorem Exact.encode_eq {p : Page} (h : p.Exact) :
    p.encode = Bits.toBytes (p.schema.headerSize p.size) p.header ++
      (p.slots.flatMap (slotImage p.schema) ++
        Bytes.zeros (p.size - (p.schema.headerSize p.size + p.slots.length * p.schema.width))) := by
  have hl : (Bits.toBytes (p.schema.headerSize p.size) p.header ++ p.slots.flatMap (slotImage p.schema)).length =
      p.schema.headerSize p.size + p.slots.length * p.schema.width := by
    rw [List.length_append, Bits.length_toBytes, length_slotImages h.width_slotImage]
  have hfit := p.schema.slots_fit p.size
  rw [← h.slots_length] at hfit
  rw [encode, h.headerSize_eq, Bytes.fit, hl, List.take_of_length_le (by omega), List.append_assoc]

theorem Exact.header_encode {p : Page} (h : p.Exact) :
    Bits.ofBytes (p.encode.take (p.schema.headerSize p.size)) = p.header := by
  rw [h.encode_eq, List.take_left' (Bits.length_toBytes _ _), Bits.ofBytes_toBytes _ _ h.header_length]

theorem Exact.slots_encode {p : Page} (h : p.Exact) :
    p.encode.drop (p.schema.headerSize p.size) = p.slots.flatMap (slotImage p.schema) ++
      Bytes.zeros (p.size - (p.schema.headerSize p.size + p.slots.length * p.schema.width)) := by
  rw [h.encode_eq, List.drop_left' (Bits.length_toBytes _ _)]

/-- The image of an exact page is read as the page with its rows in stored form. -/
theorem Exact.decode_encode {p : Page} (h : p.Exact) :
    decode p.size p.id p.schema p.encode = .ok p.reread := by
  have hslots := readSlots_slotImages p.id p.schema p.slots 0
    (Bytes.zeros (p.size - (p.schema.headerSize p.size + p.slots.length * p.schema.width)))
    (fun i t hi => by
      rw [Nat.zero_add]
      exact ⟨h.fits t (List.mem_of_getElem? hi), h.placed i t hi⟩)
  have htake : p.encode.take p.size = p.encode := List.take_of_length_le (Nat.le_of_eq (length_encode p))
  unfold decode
  rw [if_neg (by rw [length_encode]; omega)]
  simp only [htake, h.header_encode, h.slots_encode, ← h.slots_length, h.bits, hslots]
  rfl

theorem Exact.reread {p : Page} (h : p.Exact) : p.reread.Exact where
  header_length := h.header_length
  slots_length := by
    show (p.slots.map _).length = _
    rw [List.length_map]
    exact h.slots_length
  bits := by
    show p.header.take (p.slots.map _).length = (p.slots.map _).map _
    rw [List.length_map, h.bits, List.map_map]
    refine List.map_congr_left fun slot _ => ?_
    cases slot <;> rfl
  placed := by
    intro i t hi
    change (p.slots.map _)[i]? = _ at hi
    rw [List.getElem?_map, Option.map_eq_some_iff] at hi
    obtain ⟨slot, hslot, ht⟩ := hi
    obtain ⟨u, rfl, rfl⟩ := Option.map_eq_some_iff.mp ht
    exact h.placed i u hslot
  fits := by
    intro t ht
    obtain ⟨slot, hslot, hs⟩ := List.mem_map.mp ht
    obtain ⟨u, rfl, rfl⟩ := Option.map_eq_some_iff.mp hs
    exact Tuple.fits_settled (h.fits u hslot)

/-- Writing and reading a page does not change its image. -/
theorem Exact.encode_reread {p : Page} (h : p.Exact) : p.reread.encode = p.encode := by
  have hslots : p.reread.slots.flatMap (slotImage p.schema) = p.slots.flatMap (slotImage p.schema) := by
    show (p.slots.map _).flatMap _ = _
    rw [List.flatMap_map, List.flatMap_def, List.flatMap_def]
    congr 1
    refine List.map_congr_left fun slot hs => ?_
    cases slot with
    | none => rfl
    | some t => exact Tuple.encode_settled (h.fits t hs)
  unfold encode
  rw [show p.reread.schema = p.schema from rfl, hslots]
  rfl

/-- In the image of an exact page the rows are where the layout has them. -/
theorem Exact.rowAt?_encode {p : Page} (h : p.Exact) (slot : Nat) :
    p.schema.rowAt? p.size p.encode slot = (p.tuple? slot).map Tuple.encode := by
  unfold Schema.rowAt? tuple?
  rw [h.header_encode, ← h.slots_length]
  by_cases hlt : slot < p.slots.length
  · have hbit : p.header.getD slot false = (p.slots[slot]).isSome := by
      have hb := congrArg (·[slot]?) h.bits
      simp only [List.getElem?_take_of_lt hlt, List.getElem?_map, List.getElem?_eq_getElem hlt, Option.map_some] at hb
      rw [List.getD_eq_getElem?_getD, hb, Option.getD_some]
    have hslice := slice_slotImages h.width_slotImage (List.getElem?_eq_getElem hlt)
      (Bytes.zeros (p.size - (p.schema.headerSize p.size + p.slots.length * p.schema.width)))
    rw [← h.slots_encode, List.drop_drop] at hslice
    rw [hbit, hslice, List.getElem?_eq_getElem hlt]
    cases hs : p.slots[slot] with
    | none => simp [hlt]
    | some t => simp [hlt, slotImage]
  · rw [if_neg (fun hc => hlt hc.1), List.getElem?_eq_none (by omega)]
    rfl

/-- The page that a zero image is read as. -/
def blank (size : Nat) (id : PageId) (schema : Schema) : Page where
  id := id
  schema := schema
  size := size
  header := List.replicate (8 * schema.headerSize size) false
  slots := List.replicate (schema.slotCount size) none
  dirtier := none
  beforeImage := Bytes.zeros size

theorem exact_blank (size : Nat) (id : PageId) (schema : Schema) : (blank size id schema).Exact where
  header_length := List.length_replicate
  slots_length := List.length_replicate
  bits := by
    have h := schema.slotCount_le_header size
    show (List.replicate (8 * schema.headerSize size) false).take (List.replicate (schema.slotCount size) none).length =
      (List.replicate (schema.slotCount size) none).map Option.isSome
    rw [List.length_replicate, List.take_replicate, List.map_replicate, Nat.min_eq_left h]
    rfl
  placed := by
    intro i t hi
    have h := List.eq_of_mem_replicate (List.mem_of_getElem? hi)
    cases h
  fits := by
    intro t ht
    have h := List.eq_of_mem_replicate ht
    cases h

theorem toBytes_replicate_false (count : Nat) :
    Bits.toBytes count (List.replicate (8 * count) false) = Bytes.zeros count := by
  induction count with
  | zero => rfl
  | succ count ih =>
    have ht : (List.replicate (8 * (count + 1)) false).take 8 = List.replicate 8 false := by
      rw [List.take_replicate, Nat.mul_succ, Nat.min_eq_left (Nat.le_add_left 8 (8 * count))]
    have hd : (List.replicate (8 * (count + 1)) false).drop 8 = List.replicate (8 * count) false := by
      rw [List.drop_replicate, Nat.mul_succ, Nat.add_sub_cancel]
    rw [Bits.toBytes, ht, hd, ih]
    rfl

theorem encode_blank (size : Nat) (id : PageId) (schema : Schema) :
    (blank size id schema).encode = Bytes.zeros size := by
  have hfit := schema.slots_fit size
  have hslots : (List.replicate (schema.slotCount size) none).flatMap (slotImage schema) =
      Bytes.zeros (schema.slotCount size * schema.width) := by
    induction schema.slotCount size with
    | zero => rw [Nat.zero_mul]; rfl
    | succ n ih =>
      rw [List.replicate_succ, List.flatMap_cons, ih, Nat.succ_mul, Nat.add_comm]
      exact List.replicate_append_replicate
  rw [(exact_blank size id schema).encode_eq]
  change Bits.toBytes (schema.headerSize size) (List.replicate (8 * schema.headerSize size) false) ++
    ((List.replicate (schema.slotCount size) none).flatMap (slotImage schema) ++
      Bytes.zeros (size - (schema.headerSize size + (List.replicate (schema.slotCount size) none).length *
        schema.width))) = _
  rw [toBytes_replicate_false, hslots, List.length_replicate]
  unfold Bytes.zeros
  rw [List.replicate_append_replicate, List.replicate_append_replicate]
  congr 1
  omega

theorem tuple?_blank (size : Nat) (id : PageId) (schema : Schema) (slot : Nat) :
    (blank size id schema).tuple? slot = none := by
  show ((List.replicate _ none)[slot]?).join = none
  rw [List.getElem?_replicate]
  split <;> rfl

theorem tuple?_reread (p : Page) (slot : Nat) : p.reread.tuple? slot = (p.tuple? slot).map Tuple.settled := by
  show ((p.slots.map (Option.map Tuple.settled))[slot]?).join = ((p.slots[slot]?).join).map Tuple.settled
  rw [List.getElem?_map]
  cases p.slots[slot]? <;> rfl

/-- A page that is read from a zero image has no rows. -/
theorem tuple?_of_decode_zeros {size : Nat} {id : PageId} {schema : Schema} {page : Page}
    (h : decode size id schema (Bytes.zeros size) = .ok page) (slot : Nat) : page.tuple? slot = none := by
  have hblank := (exact_blank size id schema).decode_encode
  rw [encode_blank] at hblank
  cases h.symm.trans hblank
  rw [tuple?_reread, tuple?_blank]
  rfl

end Page

end RowStore
