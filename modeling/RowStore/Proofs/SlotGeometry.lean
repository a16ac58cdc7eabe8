import RowStore.Config
import RowStore.Proofs.CheckedReads
import RowStore.Proofs.PageEntries
import RowStore.Proofs.PagesOnFile

/-!
# The layout of a page

The number of slots comes from counting bits, while the header and the slots take whole bytes. The layout fits all the
same, and one slot more would not, however wide a row is. As long as pages are no larger than allowed the slot numbers
have 32 bits. So every image that is long enough is read as a page, and the reader stays within its bytes.
-/

namespace RowStore

namespace Schema

/-- One slot more would not fit into a page, whatever the width of a row. -/
theorem lt_layout_succ (s : Schema) (size : Nat) :
    size < (s.slotCount size + 1 + 7) / 8 + (s.slotCount size + 1) * s.width := by
  have hbits : size * 8 < (s.width * 8 + 1) * (s.slotCount size + 1) := Nat.lt_mul_div_succ _ (Nat.succ_pos _)
  have hsplit : (s.width * 8 + 1) * (s.slotCount size + 1) =
      8 * ((s.slotCount size + 1) * s.width) + (s.slotCount size + 1) := by
    rw [Nat.add_mul, Nat.one_mul, Nat.mul_right_comm, Nat.mul_comm _ 8, Nat.mul_comm s.width]
  omega

/-- The slots of a page of allowed size are numbered with 32 bits. -/
theorem slotCount_lt {size : Nat} (h : size ≤ maxPageSize) (s : Schema) : s.slotCount size < 2 ^ 32 := by
  have hle : s.slotCount size ≤ size * 8 := Nat.div_le_self ..
  have hmax : maxPageSize = 2 ^ 28 := rfl
  omega

end Schema

namespace Page

variable {size : Nat} {id : PageId} {schema : Schema} {data : Bytes}

theorem decode_eq_pageNotFound_iff : decode size id schema data = .error (.pageNotFound id) ↔ data.length < size := by
  constructor
  · intro h
    refine Nat.lt_of_not_le fun hle => ?_
    obtain ⟨page, hpage⟩ := exists_decode size id schema hle
    rw [hpage] at h
    cases h
  · intro h
    rw [decode, if_pos h]

/-- The header and the slots of a page fit into it, and they would not with one slot more. On a page of allowed size
every slot number has 32 bits, so that no two slots share one. Every byte string that is as long as a page is read as
one with all its slots; one that is shorter is refused for that, and nothing else is ever refused. The reader stays
within the bytes that are given. -/
theorem slot_layout_exact (schema : Schema) (size : Nat) (hsize : size ≤ maxPageSize) :
    let count := schema.slotCount size
    (count + 7) / 8 + count * schema.width ≤ size ∧
    size < (count + 1 + 7) / 8 + (count + 1) * schema.width ∧
    (∀ slot < count, slot < 2 ^ 32 ∧ (UInt32.ofNat slot).toNat = slot) ∧
    ∀ id data,
      decodeWithin size id schema data = some (decode size id schema data) ∧
      (decode size id schema data = .error (.pageNotFound id) ↔ data.length < size) ∧
      (size ≤ data.length → ∃ page, decode size id schema data = .ok page ∧ page.slots.length = count) := by
  intro count
  have hcount : count < 2 ^ 32 := schema.slotCount_lt hsize
  refine ⟨schema.slots_fit size, schema.lt_layout_succ size, fun slot hslot => ⟨by omega, ?_⟩, fun id data =>
    ⟨decodeWithin_eq size id schema data, decode_eq_pageNotFound_iff, fun hlong => ?_⟩⟩
  · rw [UInt32.toNat_ofNat', Nat.mod_eq_of_lt (by omega)]
  · obtain ⟨page, hpage⟩ := exists_decode size id schema hlong
    obtain ⟨hshaped, rfl⟩ := shaped_of_decode hpage
    exact ⟨page, hpage, by rw [hshaped.slots_length, size_of_decode hpage]⟩

/-- Rows without any bytes on a page of the largest size, and rows that are wider than their page. -/
theorem slot_layout_exact_of_extreme_widths :
    let bare : Schema := ⟨[⟨"c", .char 0⟩]⟩
    let wide : Schema := ⟨[⟨"c", .char 65535⟩]⟩
    maxPageSize ≤ maxPageSize ∧ bare.slotCount maxPageSize = 2 ^ 31 ∧
      (UInt32.ofNat (2 ^ 31 - 1)).toNat = 2 ^ 31 - 1 ∧ wide.slotCount 16 = 0 ∧
      ∃ page, decode 16 ⟨⟨0⟩, 0⟩ wide (List.replicate 16 255) = .ok page ∧ page.slots.length = 0 := by
  intro bare wide
  have hbare : bare.slotCount maxPageSize = 2 ^ 31 := by decide
  have hwide : wide.slotCount 16 = 0 := by decide
  have hlast := (slot_layout_exact bare maxPageSize (Nat.le_refl _)).2.2.1 (2 ^ 31 - 1) (by rw [hbare]; decide)
  have hread := (slot_layout_exact wide 16 (by decide)).2.2.2 ⟨⟨0⟩, 0⟩ (List.replicate 16 255)
  rw [hwide] at hread
  exact ⟨Nat.le_refl _, hbare, hlast.2, hwide, hread.2.2 (by decide)⟩

end Page

end RowStore
