import RowStore.Proofs.PageImage

/-!
# Storing and removing rows on a page

On a well-shaped page the slots are a finite map from slot numbers to rows. Storing a row fills the least free slot,
removing one empties the slot that the record id names, and neither touches another slot or anything else of
the page. Both keep a page well shaped, and exact if the stored row fits its columns.
-/

namespace RowStore.Page

def put (p : Page) (slot : Nat) (t : Tuple) : Page :=
  { p with header := p.header.set slot true, slots := p.slots.set slot (some (t.withRecord ⟨p.id, slot⟩)) }

def clear (p : Page) (slot : Nat) : Page :=
  { p with header := p.header.set slot false, slots := p.slots.set slot none }

theorem tuple?_of_lt {p : Page} {slot : Nat} (h : slot < p.slots.length) : p.tuple? slot = p.slots[slot] := by
  rw [tuple?, List.getElem?_eq_getElem h]
  rfl

theorem tuple?_put {p : Page} {slot : Nat} (h : slot < p.slots.length) (t : Tuple) (i : Nat) :
    (p.put slot t).tuple? i = if slot = i then some (t.withRecord ⟨p.id, slot⟩) else p.tuple? i := by
  unfold tuple? put
  simp only [List.getElem?_set, h, if_true]
  split <;> rfl

theorem tuple?_clear {p : Page} {slot : Nat} (h : slot < p.slots.length) (i : Nat) :
    (p.clear slot).tuple? i = if slot = i then none else p.tuple? i := by
  unfold tuple? clear
  simp only [List.getElem?_set, h, if_true]
  split <;> rfl

/-- On a well-shaped page a header bit is set exactly when its slot holds a row. -/
theorem Shaped.getElem?_header {p : Page} (h : p.Shaped) {slot : Nat} (hs : slot < p.slots.length) :
    p.header[slot]? = some (p.tuple? slot).isSome := by
  have hb := congrArg (·[slot]?) h.bits
  simp only [List.getElem?_take_of_lt hs, List.getElem?_map, List.getElem?_eq_getElem hs, Option.map_some] at hb
  rw [hb, tuple?_of_lt hs]

theorem Shaped.getD_header {p : Page} (h : p.Shaped) {slot : Nat} (hs : slot < p.slots.length) :
    p.header.getD slot false = (p.tuple? slot).isSome := by
  rw [List.getD_eq_getElem?_getD, h.getElem?_header hs, Option.getD_some]

theorem Shaped.put {p : Page} (h : p.Shaped) {slot : Nat} {t : Tuple} (ht : t.schema = p.schema) :
    (p.put slot t).Shaped where
  header_length := (List.length_set ..).trans h.header_length
  slots_length := (List.length_set ..).trans h.slots_length
  bits := by
    show (p.header.set slot true).take (p.slots.set slot _).length = (p.slots.set slot _).map Option.isSome
    rw [List.length_set, List.take_set, h.bits, List.map_set]
    rfl
  placed := by
    intro i u hi
    change (p.slots.set slot _)[i]? = _ at hi
    rw [List.getElem?_set] at hi
    split at hi
    · rename_i hslot
      subst hslot
      split at hi
      · cases hi
        exact ⟨ht, rfl⟩
      · cases hi
    · exact h.placed i u hi

theorem Shaped.clear {p : Page} (h : p.Shaped) (slot : Nat) : (p.clear slot).Shaped where
  header_length := (List.length_set ..).trans h.header_length
  slots_length := (List.length_set ..).trans h.slots_length
  bits := by
    show (p.header.set slot false).take (p.slots.set slot _).length = (p.slots.set slot _).map Option.isSome
    rw [List.length_set, List.take_set, h.bits, List.map_set]
    rfl
  placed := by
    intro i u hi
    change (p.slots.set slot _)[i]? = _ at hi
    rw [List.getElem?_set] at hi
    split at hi
    · split at hi <;> cases hi
    · exact h.placed i u hi

theorem Exact.put {p : Page} (h : p.Exact) {slot : Nat} {t : Tuple} (ht : t.schema = p.schema) (hf : t.Fits) :
    (p.put slot t).Exact where
  toShaped := h.toShaped.put ht
  fits := by
    intro u hu
    rcases List.mem_or_eq_of_mem_set hu with hold | hnew
    · exact h.fits u hold
    · cases hnew
      exact hf

theorem Exact.clear {p : Page} (h : p.Exact) (slot : Nat) : (p.clear slot).Exact where
  toShaped := h.toShaped.clear slot
  fits := by
    intro u hu
    rcases List.mem_or_eq_of_mem_set hu with hold | hnew
    · exact h.fits u hold
    · cases hnew

theorem Exact.markDirty {p : Page} (h : p.Exact) (txn : Option TxnId) : (p.markDirty txn).Exact :=
  ⟨⟨h.header_length, h.slots_length, h.bits, h.placed⟩, h.fits⟩

theorem Exact.setBeforeImage {p : Page} (h : p.Exact) : p.setBeforeImage.Exact :=
  ⟨⟨h.header_length, h.slots_length, h.bits, h.placed⟩, h.fits⟩

@[simp] theorem encode_markDirty (p : Page) (txn : Option TxnId) : (p.markDirty txn).encode = p.encode := rfl

@[simp] theorem encode_setBeforeImage (p : Page) : p.setBeforeImage.encode = p.encode := rfl

/-- The first free slot is the least slot without a row. -/
theorem Shaped.firstFree?_eq_some {p : Page} (h : p.Shaped) {slot : Nat} (hf : p.firstFree? = some slot) :
    slot < p.slots.length ∧ p.tuple? slot = none ∧ ∀ i < slot, (p.tuple? i).isSome := by
  rw [firstFree?, h.bits, List.findIdx?_eq_some_iff_getElem] at hf
  obtain ⟨hlt, hfree, hbefore⟩ := hf
  rw [List.length_map] at hlt
  simp only [List.getElem_map, decide_eq_true_eq] at hfree hbefore
  refine ⟨hlt, ?_, ?_⟩
  · rw [tuple?_of_lt hlt]
    exact Option.isSome_eq_false_iff.mp hfree |> Option.isNone_iff_eq_none.mp
  · intro i hi
    have hb := hbefore i hi
    rw [tuple?_of_lt (by omega)]
    simpa [Option.isSome_iff_ne_none] using hb

/-- No slot is free exactly when all hold rows. -/
theorem Shaped.firstFree?_eq_none {p : Page} (h : p.Shaped) :
    p.firstFree? = none ↔ ∀ i < p.slots.length, (p.tuple? i).isSome := by
  rw [firstFree?, h.bits, List.findIdx?_eq_none_iff]
  constructor
  · intro hall i hi
    have hb := hall _ (List.mem_map_of_mem (List.getElem_mem hi))
    rw [tuple?_of_lt hi]
    simpa [Option.isSome_iff_ne_none] using hb
  · intro hall b hb
    obtain ⟨slot, hslot, rfl⟩ := List.mem_map.mp hb
    obtain ⟨i, hi, rfl⟩ := List.mem_iff_getElem.mp hslot
    have hs := hall i hi
    rw [tuple?_of_lt hi] at hs
    simp [hs]

/-- There is room exactly when some slot holds no row. -/
theorem freeSlots_pos (p : Page) : 0 < p.freeSlots ↔ ∃ i < p.slots.length, p.tuple? i = none := by
  rw [freeSlots, List.countP_pos_iff]
  constructor
  · rintro ⟨slot, hs, hn⟩
    obtain ⟨i, hi, rfl⟩ := List.mem_iff_getElem.mp hs
    exact ⟨i, hi, (tuple?_of_lt hi).trans (Option.isNone_iff_eq_none.mp hn)⟩
  · rintro ⟨i, hi, hn⟩
    rw [tuple?_of_lt hi] at hn
    exact ⟨p.slots[i], List.getElem_mem hi, Option.isNone_iff_eq_none.mpr hn⟩

/-- A row is stored in the least free slot. -/
theorem Shaped.insert_eq_ok {p p' : Page} {t : Tuple} {r : RecordId} (h : p.Shaped)
    (hi : p.insert t = .ok (p', r)) :
    t.schema = p.schema ∧ r.page = p.id ∧ p' = p.put r.slot t ∧ r.slot < p.slots.length ∧
      p.tuple? r.slot = none ∧ ∀ i < r.slot, (p.tuple? i).isSome := by
  unfold insert at hi
  split at hi
  · cases hi
  · rename_i hs
    split at hi
    · cases hi
    · rename_i slot hf
      cases hi
      exact ⟨Decidable.not_not.mp hs, rfl, rfl, h.firstFree?_eq_some hf⟩

/-- A row of the page's schema is stored if there is room. -/
theorem Shaped.insert_of_free {p : Page} {t : Tuple} (h : p.Shaped) (ht : t.schema = p.schema)
    (hf : 0 < p.freeSlots) : ∃ p' r, p.insert t = .ok (p', r) := by
  obtain ⟨i, hi, hn⟩ := (freeSlots_pos p).mp hf
  unfold insert
  rw [if_neg (fun hne => hne ht)]
  cases hff : p.firstFree? with
  | none =>
    have hall := h.firstFree?_eq_none.mp hff i hi
    rw [hn] at hall
    cases hall
  | some slot => exact ⟨_, _, rfl⟩

/-- The row that a record id names is removed from its slot. -/
theorem Shaped.delete_eq_ok {p p' : Page} {r : RecordId} (h : p.Shaped) (hd : p.delete (some r) = .ok p') :
    r.page = p.id ∧ p' = p.clear r.slot ∧ r.slot < p.slots.length ∧ (p.tuple? r.slot).isSome := by
  unfold delete at hd
  simp only at hd
  split at hd
  · cases hd
  · rename_i hp
    split at hd
    · cases hd
    · rename_i hlt
      split at hd
      · cases hd
      · rename_i ht
        cases hd
        have hlt' : r.slot < p.slots.length := Nat.lt_of_not_le hlt
        refine ⟨Decidable.not_not.mp hp, rfl, hlt', ?_⟩
        rw [← h.getD_header hlt']
        unfold isTaken at ht
        simpa [hlt'] using ht

end RowStore.Page
