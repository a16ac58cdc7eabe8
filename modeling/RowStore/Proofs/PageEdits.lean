import RowStore.Proofs.PageEntries

/-!
# Runs of edits on a page

A page is edited by storing and removing rows. An edit that is refused leaves the page as it is; one that is carried out
changes a single slot. So any run of edits keeps the identity and the shape of the page, every row on it afterwards was
there before or is one of those that the run stores, and a row that no removal names lies where it lay. If all of these
rows fit their columns, the page is written and read back as itself, with its rows in stored form.
-/

namespace RowStore

inductive PageEdit where
  | insert (t : Tuple)
  | delete (record : Option RecordId)
deriving DecidableEq

namespace Page

/-- The page after an edit, unless the edit is refused. -/
def edit (p : Page) : PageEdit → Except StorageError Page
  | .insert t => (p.insert t).map Prod.fst
  | .delete record => p.delete record

/-- The page after a run of edits, each of which leaves it as it is if it is refused. -/
def edited (p : Page) (edits : List PageEdit) : Page := edits.foldl (fun p e => (p.edit e).toOption.getD p) p

/-- An edit that is carried out fills a free slot with a row of the page's schema or frees the slot that it names. -/
theorem Shaped.edit_eq_ok {p p' : Page} {e : PageEdit} (h : p.Shaped) (he : p.edit e = .ok p') :
    (∃ t slot, e = .insert t ∧ t.schema = p.schema ∧ slot < p.slots.length ∧ p.tuple? slot = none ∧
        p' = p.put slot t) ∨
      (∃ r, e = .delete (some r) ∧ r.page = p.id ∧ r.slot < p.slots.length ∧ p' = p.clear r.slot) := by
  cases e with
  | insert t =>
    cases hi : p.insert t with
    | error err =>
      rw [edit, hi] at he
      cases he
    | ok stored =>
      rw [edit, hi] at he
      cases he
      obtain ⟨hs, _, hput, hlt, hfree, _⟩ := h.insert_eq_ok hi
      exact .inl ⟨t, stored.2.slot, rfl, hs, hlt, hfree, hput⟩
  | delete record =>
    cases record with
    | none => cases he
    | some r =>
      obtain ⟨hp, hclear, hlt, _⟩ := h.delete_eq_ok he
      exact .inr ⟨r, rfl, hp, hlt, hclear⟩

/-- What holds of a well-shaped page and is kept by filling a free slot with a row of the run and by freeing a slot that
the run names holds after the run. -/
theorem Shaped.edited_induction {motive : Page → Prop} {p : Page} {edits : List PageEdit} (h : p.Shaped)
    (start : motive p)
    (put : ∀ {q : Page} {t : Tuple} {slot : Nat}, motive q → .insert t ∈ edits → t.schema = q.schema →
      slot < q.slots.length → q.tuple? slot = none → motive (q.put slot t))
    (clear : ∀ {q : Page} {r : RecordId}, motive q → .delete (some r) ∈ edits → r.page = q.id →
      r.slot < q.slots.length → motive (q.clear r.slot)) :
    (p.edited edits).Shaped ∧ motive (p.edited edits) := by
  induction edits generalizing p with
  | nil => exact ⟨h, start⟩
  | cons e edits ih =>
    have hstep : ((p.edit e).toOption.getD p).Shaped ∧ motive ((p.edit e).toOption.getD p) := by
      cases he : p.edit e with
      | error err => exact ⟨h, start⟩
      | ok p' =>
        obtain ⟨t, slot, rfl, hs, hlt, hfree, rfl⟩ | ⟨r, rfl, hp, hlt, rfl⟩ := h.edit_eq_ok he
        · exact ⟨h.put hs, put start List.mem_cons_self hs hlt hfree⟩
        · exact ⟨h.clear r.slot, clear start List.mem_cons_self hp hlt⟩
    exact ih hstep.1 hstep.2 (fun hq ht => put hq (List.mem_cons_of_mem e ht))
      (fun hq hr => clear hq (List.mem_cons_of_mem e hr))

theorem Shaped.edited {p : Page} (h : p.Shaped) (edits : List PageEdit) :
    (p.edited edits).Shaped ∧ (p.edited edits).id = p.id ∧ (p.edited edits).schema = p.schema ∧
      (p.edited edits).size = p.size :=
  h.edited_induction (motive := fun q => q.id = p.id ∧ q.schema = p.schema ∧ q.size = p.size) ⟨rfl, rfl, rfl⟩
    (fun hq _ _ _ _ => hq) (fun hq _ _ _ => hq)

theorem Shaped.mem_slots_edited {p : Page} {edits : List PageEdit} {u : Tuple} (h : p.Shaped)
    (hu : some u ∈ (p.edited edits).slots) :
    some u ∈ p.slots ∨ ∃ t r, .insert t ∈ edits ∧ t.schema = p.schema ∧ u = t.withRecord r := by
  have hrows : (p.edited edits).Shaped ∧ (p.edited edits).schema = p.schema ∧ ∀ u, some u ∈ (p.edited edits).slots →
      some u ∈ p.slots ∨ ∃ t r, .insert t ∈ edits ∧ t.schema = p.schema ∧ u = t.withRecord r := by
    refine h.edited_induction (motive := fun q => q.schema = p.schema ∧ ∀ u, some u ∈ q.slots →
      some u ∈ p.slots ∨ ∃ t r, .insert t ∈ edits ∧ t.schema = p.schema ∧ u = t.withRecord r)
      ⟨rfl, fun u hu => .inl hu⟩ ?_ ?_
    · intro q t slot hq ht hs _ _
      refine ⟨hq.1, fun u hu => ?_⟩
      rcases List.mem_or_eq_of_mem_set hu with hold | hnew
      · exact hq.2 u hold
      · exact .inr ⟨t, _, ht, hs.trans hq.1, Option.some.inj hnew⟩
    · intro q r hq _ _ _
      refine ⟨hq.1, fun u hu => ?_⟩
      rcases List.mem_or_eq_of_mem_set hu with hold | hnew
      · exact hq.2 u hold
      · cases hnew
  exact hrows.2.2 u hu

/-- A row stays as it is while no removal names it. -/
theorem Shaped.tuple?_edited {p : Page} {edits : List PageEdit} {slot : Nat} {t : Tuple} (h : p.Shaped)
    (hkept : .delete (some ⟨p.id, slot⟩) ∉ edits) (ht : p.tuple? slot = some t) :
    (p.edited edits).tuple? slot = some t := by
  refine (h.edited_induction (motive := fun q => q.id = p.id ∧ q.tuple? slot = some t) ⟨rfl, ht⟩ ?_ ?_).2.2
  · rintro q u free ⟨hid, hq⟩ _ _ hlt hfree
    refine ⟨hid, ?_⟩
    rw [tuple?_put hlt, if_neg (fun heq => ?_), hq]
    rw [heq, hq] at hfree
    cases hfree
  · rintro q ⟨_, i⟩ ⟨hid, hq⟩ hr rfl hlt
    refine ⟨hid, ?_⟩
    rw [tuple?_clear hlt, if_neg (fun heq => ?_), hq]
    rw [← hid, ← heq] at hkept
    exact hkept hr

/-- A page with fitting rows stays one if the rows that are stored fit as well. -/
theorem Exact.edited {p : Page} {edits : List PageEdit} (h : p.Exact) (hf : ∀ t, .insert t ∈ edits → t.Fits) :
    (p.edited edits).Exact where
  toShaped := (h.toShaped.edited edits).1
  fits := by
    intro u hu
    obtain hold | ⟨t, r, ht, _, rfl⟩ := h.toShaped.mem_slots_edited hu
    · exact h.fits u hold
    · exact hf t ht

/-- An exact page is read back from its image with the same header, and every slot has its row in stored form. -/
theorem Exact.slots_decode_encode {p : Page} (h : p.Exact) :
    ∃ q, decode p.size p.id p.schema p.encode = .ok q ∧ q.header = p.header ∧
      (∀ slot, q.isTaken slot = p.isTaken slot) ∧
      (∀ slot, p.tuple? slot = none → q.tuple? slot = none) ∧
      (∀ slot t, p.tuple? slot = some t →
        q.tuple? slot = some ⟨p.schema, Tuple.storedValues t.values p.schema.columns, some ⟨p.id, slot⟩⟩) ∧
      q.encode = p.encode := by
  have hlength : p.reread.slots.length = p.slots.length := List.length_map _
  refine ⟨p.reread, h.decode_encode, rfl, fun slot => ?_, fun slot hnone => ?_, fun slot t ht => ?_, h.encode_reread⟩
  · rw [isTaken, hlength]
    rfl
  · rw [tuple?_reread, hnone]
    rfl
  · obtain ⟨hschema, hrecord⟩ := h.placed slot t (Option.join_eq_some_iff.mp ht)
    rw [tuple?_reread, ht, Option.map_some, Tuple.settled, Tuple.stored, hschema, hrecord]

theorem decode_emptyImage (size : Nat) (id : PageId) (schema : Schema) :
    decode size id schema (emptyImage size) = .ok (blank size id schema).reread := by
  have h := (exact_blank size id schema).decode_encode
  rwa [encode_blank] at h

/-- However a page is filled from an empty one by rows that are built for its schema, and rows removed again, its image
has the size of a page and is read back with the same header and the same rows in the same slots, in stored form; the
page that is read has the same image. -/
theorem decode_encode_edited (size : Nat) (id : PageId) (schema : Schema) {edits : List PageEdit}
    (hb : ∀ t, .insert t ∈ edits → ∃ values, Tuple.ofValues schema values = .ok t) :
    ∃ p, decode size id schema (emptyImage size) = .ok p ∧ (p.edited edits).encode.length = size ∧
      ∃ q, decode size id schema (p.edited edits).encode = .ok q ∧ q.header = (p.edited edits).header ∧
        (∀ slot, q.isTaken slot = (p.edited edits).isTaken slot) ∧
        (∀ slot, (p.edited edits).tuple? slot = none → q.tuple? slot = none) ∧
        (∀ slot t, (p.edited edits).tuple? slot = some t →
          q.tuple? slot = some ⟨schema, Tuple.storedValues t.values schema.columns, some ⟨id, slot⟩⟩) ∧
        q.encode = (p.edited edits).encode := by
  have hexact : ((blank size id schema).reread.edited edits).Exact :=
    (exact_blank size id schema).reread.edited fun t ht => by
      obtain ⟨values, hvalues⟩ := hb t ht
      exact Tuple.fits_of_ofValues hvalues
  obtain ⟨_, hid, hschema, hsize⟩ := (exact_blank size id schema).reread.toShaped.edited edits
  obtain ⟨q, hq⟩ := hexact.slots_decode_encode
  rw [hid, hschema, hsize] at hq
  exact ⟨_, decode_emptyImage size id schema, (length_encode _).trans hsize, q, hq⟩

/-- Of two rows with an integer in a wide column and a text with a space at its end, the second is left and read back. -/
theorem decode_encode_edited_wide_integer :
    let schema : Schema := ⟨[⟨"n", .bigint⟩, ⟨"c", .char 2⟩]⟩
    let id : PageId := ⟨⟨1⟩, 0⟩
    let row : Tuple := ⟨schema, [.integer 7, .text "a "], none⟩
    let edits : List PageEdit := [.insert row, .insert row, .delete (some ⟨id, 0⟩)]
    ∃ p q, decode 32 id schema (emptyImage 32) = .ok p ∧ decode 32 id schema (p.edited edits).encode = .ok q ∧
      q.tuple? 0 = none ∧ q.tuple? 1 = some ⟨schema, [.bigint 7, .text "a"], some ⟨id, 1⟩⟩ := by
  intro schema id row edits
  have hb : ∀ t, .insert t ∈ edits → ∃ values, Tuple.ofValues schema values = .ok t := by
    intro t ht
    obtain rfl : t = row := by simpa [edits] using ht
    exact ⟨row.values, rfl⟩
  obtain ⟨p, hp, _, q, hq, _, _, hfree, hrows, _⟩ := decode_encode_edited 32 id schema hb
  obtain rfl : (blank 32 id schema).reread = p := Except.ok.inj ((decode_emptyImage 32 id schema).symm.trans hp)
  refine ⟨_, q, hp, hq, hfree 0 (by decide), ?_⟩
  rw [hrows 1 (row.withRecord ⟨id, 1⟩) (by decide)]
  decide

end Page

end RowStore
