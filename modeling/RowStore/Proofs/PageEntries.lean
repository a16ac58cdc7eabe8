import RowStore.Proofs.PageSlots

/-!
# What a page shows to a scan

A scan gives out the rows of a page with their record ids. The entries of a page are the record ids and the bytes of its
rows in slot order. Every page that is read is well shaped, whatever the bytes of its image are, and exact if the rows
on it fit their columns. Writing and reading an exact page leaves its entries as they are.
-/

namespace RowStore

/-- What a scan tells about a row: the place that it lies in and its bytes. -/
def Tuple.entry (t : Tuple) : Option RecordId × Bytes := (t.record, t.encode)

theorem Tuple.entry_settled {t : Tuple} (h : t.Fits) : t.settled.entry = t.entry := by
  unfold entry
  rw [encode_settled h]
  rfl

theorem Tuple.schema_of_decode {schema : Schema} {bs : Bytes} {t : Tuple} (h : decode schema bs = some t) :
    t.schema = schema := by
  unfold decode at h
  split at h
  · cases h
  · obtain ⟨values, _, rfl⟩ := Option.map_eq_some_iff.mp h
    rfl

namespace Page

/-- The record ids and the bytes of the rows in slot order. -/
def entries (p : Page) : List (Option RecordId × Bytes) := p.tuples.map Tuple.entry

@[simp] theorem entries_markDirty (p : Page) (txn : Option TxnId) : (p.markDirty txn).entries = p.entries := rfl

@[simp] theorem entries_setBeforeImage (p : Page) : p.setBeforeImage.entries = p.entries := rfl

/-- A page that is written and read shows the same entries. -/
theorem Exact.entries_reread {p : Page} (h : p.Exact) : p.reread.entries = p.entries := by
  have hfits : ∀ t ∈ p.tuples, t.Fits := by
    intro t ht
    obtain ⟨cell, hcell, rfl⟩ := List.mem_filterMap.mp ht
    exact h.fits t hcell
  have htuples : p.reread.tuples = p.tuples.map Tuple.settled := by
    show (p.slots.map (Option.map Tuple.settled)).filterMap (fun slot => slot) = _
    rw [List.filterMap_map, tuples, List.map_filterMap]
    rfl
  unfold entries
  rw [htuples, List.map_map]
  exact List.map_congr_left fun t ht => Tuple.entry_settled (hfits t ht)

/-- Reading slots fills exactly those whose bits are set, each row in its place. -/
theorem readSlots_shaped {id : PageId} {schema : Schema} {k : Nat} {bits : List Bool} {bs : Bytes}
    {slots : List (Option Tuple)} (h : readSlots id schema k bits bs = .ok slots) :
    slots.map Option.isSome = bits ∧
      ∀ (i : Nat) (t : Tuple), slots[i]? = some (some t) → t.schema = schema ∧ t.record = some ⟨id, k + i⟩ := by
  induction bits generalizing k bs slots with
  | nil =>
    cases h
    refine ⟨rfl, fun i t hi => ?_⟩
    cases hi
  | cons taken rest ih =>
    obtain ⟨first, later, rfl, hrest, hfirst⟩ := readSlots_cons.mp h
    obtain ⟨hbits, hplaced⟩ := ih hrest
    have hlater : ∀ (i : Nat) (t : Tuple), later[i]? = some (some t) →
        t.schema = schema ∧ t.record = some ⟨id, k + (i + 1)⟩ := by
      intro i t hi
      have hp := hplaced i t hi
      rwa [Nat.add_right_comm] at hp
    obtain ⟨rfl, rfl⟩ | ⟨rfl, t, ht, rfl⟩ := hfirst
    · refine ⟨congrArg (false :: ·) hbits, fun i u hi => ?_⟩
      cases i with
      | zero => cases hi
      | succ i => exact hlater i u hi
    · refine ⟨congrArg (true :: ·) hbits, fun i u hi => ?_⟩
      cases i with
      | zero =>
        cases hi
        have hschema := Tuple.schema_of_decode ht
        exact ⟨hschema, rfl⟩
      | succ i => exact hlater i u hi

theorem shaped_of_decode {size : Nat} {id : PageId} {schema : Schema} {data : Bytes} {p : Page}
    (h : decode size id schema data = .ok p) : p.Shaped ∧ p.schema = schema := by
  have hfit := schema.slots_fit size
  have hheader := schema.slotCount_le_header size
  unfold decode at h
  split at h
  · cases h
  · rename_i hlong
    simp only at h
    have hlength : (Bits.ofBytes ((data.take size).take (schema.headerSize size))).length =
        8 * schema.headerSize size := by
      rw [Bits.length_ofBytes, List.length_take, List.length_take]
      omega
    split at h
    · cases h
    · rename_i slots hslots
      cases h
      obtain ⟨hbits, hplaced⟩ := readSlots_shaped hslots
      have hcount : slots.length = schema.slotCount size := by
        have hsame := congrArg List.length hbits
        rw [List.length_map, List.length_take, hlength] at hsame
        omega
      refine ⟨⟨hlength, hcount, ?_, fun i t hi => ?_⟩, rfl⟩
      · show List.take slots.length _ = slots.map Option.isSome
        rw [hcount, hbits]
      · have hp := hplaced i t hi
        rwa [Nat.zero_add] at hp

/-- A page that is read is exact if the rows on it fit. -/
theorem exact_of_decode {size : Nat} {id : PageId} {schema : Schema} {data : Bytes} {p : Page}
    (h : decode size id schema data = .ok p) (hf : ∀ t ∈ p.tuples, t.Fits) : p.Exact where
  toShaped := (shaped_of_decode h).1
  fits := fun t ht => hf t (List.mem_filterMap.mpr ⟨some t, ht, rfl⟩)

end Page

end RowStore
