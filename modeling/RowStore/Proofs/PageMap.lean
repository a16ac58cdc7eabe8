import RowStore.Proofs.DeletedRows
import RowStore.Proofs.PageEdits
import RowStore.Proofs.PagesOnFile

/-!
# Pages as maps from slots to rows

A page in memory is changed in place: the header bit and the slot are written one after the other, and what a call has
written when it fails stays written. The calls check everything before they write, so one that fails leaves the page as
it is. After any calls on a page that was read, the header and the slots agree on which slots hold rows, so it does not
matter which of them a call looks at: the page is a map from slot numbers to rows.
-/

namespace RowStore

inductive PageCall where
  | edit (e : PageEdit)
  | markDirty (txn : Option TxnId)
  | setBeforeImage
deriving DecidableEq

namespace Page

/-- What a call on a page does in place. What it has written stays if it fails after that. -/
abbrev InPlace (α : Type) := ExceptT StorageError (StateM Page) α

def writeBit (slot : Nat) (taken : Bool) : InPlace Unit := modify fun p => { p with header := p.header.set slot taken }

def writeSlot (slot : Nat) (row : Option Tuple) : InPlace Unit :=
  modify fun p => { p with slots := p.slots.set slot row }

def insertInPlace (t : Tuple) : InPlace RecordId := do
  let p ← get
  if t.schema ≠ p.schema then throw (.schemaMismatch (.page t.schema p.schema))
  match p.firstFree? with
  | none => throw (.pageFull p.id)
  | some slot =>
    let record : RecordId := ⟨p.id, slot⟩
    writeBit slot true
    writeSlot slot (some (t.withRecord record))
    return record

def deleteInPlace (record : Option RecordId) : InPlace Unit := do
  let p ← get
  match record with
  | none => throw .missingRecordId
  | some record =>
    if record.page ≠ p.id then throw (.tupleNotOnPage record p.id)
    if p.slots.length ≤ record.slot then throw (.invalidSlotId record.slot p.slots.length)
    if !p.isTaken record.slot then throw (.noSuchTuple record)
    writeBit record.slot false
    writeSlot record.slot none

/-- A call in place. An insert gives out the record id of the row. -/
def inPlace : PageCall → InPlace (Option RecordId)
  | .edit (.insert t) => some <$> insertInPlace t
  | .edit (.delete record) => (fun _ => none) <$> deleteInPlace record
  | .markDirty txn => do
    modify fun p => p.markDirty txn
    return none
  | .setBeforeImage => do
    modify fun p => p.setBeforeImage
    return none

/-- The outcome of a call on a page, and the page afterwards. -/
def answer (p : Page) (c : PageCall) : Except StorageError (Option RecordId) × Page := (inPlace c).run.run p

def afterCalls (p : Page) (calls : List PageCall) : Page := calls.foldl (fun p c => (p.answer c).2) p

variable {p p' : Page} {t : Tuple}

theorem run_map {α β : Type} (f : α → β) (x : InPlace α) (p : Page) :
    (f <$> x).run.run p = ((x.run.run p).1.map f, (x.run.run p).2) := by
  rw [ExceptT.run_map, StateT.run_map]
  rfl

/-- An insert in place does what the insert says, and nothing if that fails. -/
theorem run_insertInPlace (p : Page) (t : Tuple) :
    (insertInPlace t).run.run p =
      match p.insert t with
      | .ok (p', record) => (.ok record, p')
      | .error err => (.error err, p) := by
  unfold insert
  -- With the page that is read first filled in, what is left to run are the checks.
  change (ite (t.schema ≠ p.schema) _ _ : InPlace RecordId) p = _
  by_cases hschema : t.schema ≠ p.schema
  · rw [if_pos hschema, if_pos hschema]
    rfl
  · rw [if_neg hschema, if_neg hschema]
    cases p.firstFree? <;> rfl

/-- A removal in place does what the removal says, and nothing if that fails. -/
theorem run_deleteInPlace (p : Page) (record : Option RecordId) :
    (deleteInPlace record).run.run p =
      match p.delete record with
      | .ok p' => (.ok (), p')
      | .error err => (.error err, p) := by
  cases record with
  | none => rfl
  | some r =>
    unfold delete
    change (ite (r.page ≠ p.id) _ (ite (p.slots.length ≤ r.slot) _ (ite (!p.isTaken r.slot) _ _)) : InPlace Unit) p =
      _
    by_cases hpage : r.page ≠ p.id
    · simp only [if_pos hpage]
      rfl
    by_cases hslot : p.slots.length ≤ r.slot
    · simp only [if_neg hpage, if_pos hslot]
      rfl
    by_cases htaken : !p.isTaken r.slot
    · simp only [if_neg hpage, if_neg hslot, if_pos htaken]
      rfl
    · simp only [if_neg hpage, if_neg hslot, if_neg htaken]
      rfl

theorem answer_insert (p : Page) (t : Tuple) :
    p.answer (.edit (.insert t)) =
      match p.insert t with
      | .ok (p', record) => (.ok (some record), p')
      | .error err => (.error err, p) := by
  unfold answer inPlace
  rw [run_map, run_insertInPlace]
  cases p.insert t <;> rfl

theorem answer_delete (p : Page) (record : Option RecordId) :
    p.answer (.edit (.delete record)) =
      match p.delete record with
      | .ok p' => (.ok none, p')
      | .error err => (.error err, p) := by
  unfold answer inPlace
  rw [run_map, run_deleteInPlace]
  cases p.delete record <;> rfl

/-- A call that fails has written nothing. -/
theorem page_of_answer_error {c : PageCall} {err : StorageError} (h : p.answer c = (.error err, p')) : p' = p := by
  cases c with
  | edit e =>
    cases e with
    | insert t =>
      rw [answer_insert] at h
      split at h <;> cases h
      rfl
    | delete record =>
      rw [answer_delete] at h
      split at h <;> cases h
      rfl
  | markDirty txn => cases h
  | setBeforeImage => cases h

theorem insert_of_answer {out : Option RecordId} (h : p.answer (.edit (.insert t)) = (.ok out, p')) :
    ∃ record, p.insert t = .ok (p', record) ∧ out = some record := by
  rw [answer_insert] at h
  split at h
  · rename_i hi
    cases h
    exact ⟨_, hi, rfl⟩
  · cases h

theorem delete_of_answer {record out : Option RecordId} (h : p.answer (.edit (.delete record)) = (.ok out, p')) :
    p.delete record = .ok p' := by
  rw [answer_delete] at h
  split at h
  · rename_i hd
    cases h
    exact hd
  · cases h

/-- What a call on one slot leaves: the page with `row` there, and all else as it was. -/
structure Changed (p : Page) (slot : Nat) (row : Option Tuple) (p' : Page) : Prop where
  rows : p'.tuple? = Function.update p.tuple? slot row
  header : p'.header = p.header.set slot row.isSome
  slots : p'.slots.length = p.slots.length
  id : p'.id = p.id
  schema : p'.schema = p.schema
  size : p'.size = p.size
  dirtier : p'.dirtier = p.dirtier
  beforeImage : p'.beforeImage = p.beforeImage

theorem changed_put {slot : Nat} (h : slot < p.slots.length) (t : Tuple) :
    p.Changed slot (some (t.withRecord ⟨p.id, slot⟩)) (p.put slot t) := by
  refine ⟨funext fun i => ?_, rfl, List.length_set .., rfl, rfl, rfl, rfl, rfl⟩
  rw [tuple?_put h, Function.update_apply]
  simp only [eq_comm]

theorem changed_clear {slot : Nat} (h : slot < p.slots.length) : p.Changed slot none (p.clear slot) := by
  refine ⟨funext fun i => ?_, rfl, List.length_set .., rfl, rfl, rfl, rfl, rfl⟩
  rw [tuple?_clear h, Function.update_apply]
  simp only [eq_comm]

/-- Freeing a slot that was free before it was filled leaves the page as it was. -/
theorem Shaped.clear_put {slot : Nat} (h : p.Shaped) (hlt : slot < p.slots.length) (hfree : p.tuple? slot = none) :
    (p.put slot t).clear slot = p := by
  have hbits : (p.header.set slot true).set slot false = p.header := by
    obtain ⟨hlt', hbit⟩ := List.getElem?_eq_some_iff.mp (h.getElem?_header hlt)
    rw [List.set_set, show false = p.header[slot] by rw [hbit, hfree]; rfl, List.set_getElem_self]
  have hslots : (p.slots.set slot (some (t.withRecord ⟨p.id, slot⟩))).set slot none = p.slots := by
    rw [List.set_set, show none = p.slots[slot] by rw [← tuple?_of_lt hlt, hfree], List.set_getElem_self]
  unfold Page.put Page.clear
  simp only [hbits, hslots]

/-- The row in a slot is removed if its record id is given. -/
theorem Shaped.delete_of_row (h : p.Shaped) {r : RecordId} (hpage : r.page = p.id) (hlt : r.slot < p.slots.length)
    (hrow : (p.tuple? r.slot).isSome) : p.delete (some r) = .ok (p.clear r.slot) := by
  cases hd : p.delete (some r) with
  | ok p' => rw [(h.delete_eq_ok hd).2.1]
  | error err =>
    obtain ⟨hge, _⟩ | ⟨_, hnone, _⟩ := h.delete_eq_error hpage hd
    · omega
    · rw [hnone] at hrow
      cases hrow

/-- A page as a map from slot numbers to rows, and what inserts and removals make of it. -/
structure SlotMap (p : Page) : Prop where
  bits : ∀ i < p.slots.length, p.header[i]? = some (p.tuple? i).isSome
  taken : ∀ i, p.isTaken i = (p.tuple? i).isSome
  records : ∀ i row, p.tuple? i = some row → row.record = some ⟨p.id, i⟩ ∧ row.schema = p.schema
  free : p.freeSlots = p.slots.length - (p.header.take p.slots.length).count true
  insert_succeeds : ∀ t, (∃ out, (p.answer (.edit (.insert t))).1 = .ok out) ↔
    t.schema = p.schema ∧ ∃ i < p.slots.length, p.tuple? i = none
  insert_fills : ∀ t out p', p.answer (.edit (.insert t)) = (.ok out, p') →
    ∃ slot, out = some ⟨p.id, slot⟩ ∧ slot < p.slots.length ∧ p.tuple? slot = none ∧
      (∀ i < slot, (p.tuple? i).isSome) ∧ p.Changed slot (some (t.withRecord ⟨p.id, slot⟩)) p' ∧
      p'.answer (.edit (.delete out)) = (.ok none, p)
  delete_succeeds : ∀ record, (∃ out, (p.answer (.edit (.delete record))).1 = .ok out) ↔
    ∃ r, record = some r ∧ r.page = p.id ∧ r.slot < p.slots.length ∧ (p.tuple? r.slot).isSome
  delete_frees : ∀ r out p', p.answer (.edit (.delete (some r))) = (.ok out, p') → p.Changed r.slot none p'
  failure : ∀ c err p', p.answer c = (.error err, p') → p' = p

theorem Shaped.isTaken_eq (h : p.Shaped) (i : Nat) : p.isTaken i = (p.tuple? i).isSome := by
  unfold isTaken
  by_cases hi : i < p.slots.length
  · rw [decide_eq_true hi, Bool.true_and, h.getD_header hi]
  · rw [decide_eq_false hi, Bool.false_and, tuple?, List.getElem?_eq_none (Nat.le_of_not_lt hi)]
    rfl

/-- The slots without a row are those whose bits are not set. -/
theorem Shaped.freeSlots_eq (h : p.Shaped) :
    p.freeSlots = p.slots.length - (p.header.take p.slots.length).count true := by
  have hcount : (p.slots.map Option.isSome).count true = p.slots.countP Option.isSome := by
    rw [List.count, List.countP_map]
    exact List.countP_congr fun cell _ => by cases cell <;> rfl
  have hnone : p.slots.countP Option.isNone = p.slots.countP fun cell => ¬ cell.isSome :=
    List.countP_congr fun cell _ => by cases cell <;> simp
  have hsplit := p.slots.length_eq_countP_add_countP Option.isSome
  rw [h.bits, hcount, freeSlots, hnone]
  omega

/-- On a well-shaped page the header and the slots are one map. -/
theorem Shaped.slotMap (h : p.Shaped) : p.SlotMap where
  bits _ hi := h.getElem?_header hi
  taken := h.isTaken_eq
  records i row hrow := by
    refine ⟨h.record_of_tuple? hrow, (h.placed i row ?_).1⟩
    exact Option.join_eq_some_iff.mp hrow
  free := h.freeSlots_eq
  insert_succeeds t := by
    constructor
    · rintro ⟨out, hout⟩
      obtain ⟨record, hi, _⟩ := insert_of_answer (Prod.ext hout rfl)
      obtain ⟨hschema, _, _, hlt, hfree, _⟩ := h.insert_eq_ok hi
      exact ⟨hschema, record.slot, hlt, hfree⟩
    · rintro ⟨hschema, hroom⟩
      obtain ⟨p', record, hi⟩ := h.insert_of_free hschema ((freeSlots_pos p).mpr hroom)
      exact ⟨some record, by rw [answer_insert, hi]⟩
  insert_fills t out p' hout := by
    obtain ⟨⟨page, slot⟩, hi, rfl⟩ := insert_of_answer hout
    obtain ⟨hschema, rfl, rfl, hlt, hfree, hleast⟩ := h.insert_eq_ok hi
    refine ⟨slot, rfl, hlt, hfree, hleast, changed_put hlt t, ?_⟩
    have hfilled : ((p.put slot t).tuple? slot).isSome := by
      rw [tuple?_put hlt, if_pos rfl]
      rfl
    rw [answer_delete, (h.put hschema).delete_of_row rfl (by rwa [(changed_put hlt t).slots]) hfilled,
      h.clear_put hlt hfree]
  delete_succeeds record := by
    constructor
    · rintro ⟨out, hout⟩
      have hd := delete_of_answer (Prod.ext hout rfl)
      cases record with
      | none => cases hd
      | some r =>
        obtain ⟨hpage, _, hlt, hrow⟩ := h.delete_eq_ok hd
        exact ⟨r, rfl, hpage, hlt, hrow⟩
    · rintro ⟨r, rfl, hpage, hlt, hrow⟩
      exact ⟨none, by rw [answer_delete, h.delete_of_row hpage hlt hrow]⟩
  delete_frees r out p' hout := by
    obtain ⟨_, rfl, hlt, _⟩ := h.delete_eq_ok (delete_of_answer hout)
    exact changed_clear hlt
  failure _ _ _ := page_of_answer_error

/-- An edit in place leaves the page that the edit leaves. -/
theorem page_answer_edit (p : Page) (e : PageEdit) : (p.answer (.edit e)).2 = p.edited [e] := by
  change _ = (p.edit e).toOption.getD p
  cases e with
  | insert t =>
    rw [answer_insert, edit]
    cases p.insert t <;> rfl
  | delete record =>
    rw [answer_delete, edit]
    cases p.delete record <;> rfl

/-- A call keeps the page well shaped, and which page it is. -/
theorem Shaped.answer (h : p.Shaped) (c : PageCall) :
    (p.answer c).2.Shaped ∧ (p.answer c).2.id = p.id ∧ (p.answer c).2.schema = p.schema ∧
      (p.answer c).2.size = p.size := by
  cases c with
  | edit e =>
    rw [page_answer_edit]
    exact h.edited [e]
  | markDirty txn => exact ⟨h.markDirty txn, rfl, rfl, rfl⟩
  | setBeforeImage => exact ⟨h.setBeforeImage, rfl, rfl, rfl⟩

theorem Shaped.afterCalls (h : p.Shaped) (calls : List PageCall) :
    (p.afterCalls calls).Shaped ∧ (p.afterCalls calls).id = p.id ∧ (p.afterCalls calls).schema = p.schema ∧
      (p.afterCalls calls).size = p.size := by
  induction calls generalizing p with
  | nil => exact ⟨h, rfl, rfl, rfl⟩
  | cons c calls ih =>
    obtain ⟨hstep, hid, hschema, hsize⟩ := h.answer c
    obtain ⟨hrun, hid', hschema', hsize'⟩ := ih hstep
    exact ⟨hrun, hid'.trans hid, hschema'.trans hschema, hsize'.trans hsize⟩

/-- Whatever calls are made on a page that was read, failed ones among them, the page is still the one that was read,
with as many slots, and it is a map from slots to rows. -/
theorem slotMap_afterCalls {size : Nat} {id : PageId} {schema : Schema} {data : Bytes} {start : Page}
    (h : decode size id schema data = .ok start) (calls : List PageCall) :
    let p := start.afterCalls calls
    p.id = id ∧ p.schema = schema ∧ p.size = size ∧ p.slots.length = schema.slotCount size ∧ p.SlotMap := by
  obtain ⟨hshaped, hschema⟩ := shaped_of_decode h
  obtain ⟨hrun, hid, hschema', hsize⟩ := hshaped.afterCalls calls
  refine ⟨hid.trans (id_of_decode h), hschema'.trans hschema, hsize.trans (size_of_decode h), ?_, hrun.slotMap⟩
  rw [hrun.slots_length, hschema', hschema, hsize, size_of_decode h]

/-- Of three rows the second is removed; a fourth goes to its slot, and taking it out again gives back the page before.
-/
theorem slotMap_afterCalls_of_refilled_slot :
    let schema : Schema := ⟨[⟨"n", .bigint⟩]⟩
    let id : PageId := ⟨⟨1⟩, 0⟩
    let row (n : Int64) : Tuple := ⟨schema, [.bigint n], none⟩
    let calls : List PageCall := [.edit (.insert (row 1)), .markDirty (some ⟨7⟩), .edit (.insert (row 2)),
      .edit (.insert (row 3)), .edit (.delete (some ⟨id, 9⟩)), .setBeforeImage, .edit (.delete (some ⟨id, 1⟩))]
    ∃ start, decode 64 id schema (emptyImage 64) = .ok start ∧ (start.afterCalls calls).freeSlots = 5 ∧
      ∃ p', (start.afterCalls calls).answer (.edit (.insert (row 4))) = (.ok (some ⟨id, 1⟩), p') ∧
        p'.answer (.edit (.delete (some ⟨id, 1⟩))) = (.ok none, start.afterCalls calls) := by
  intro schema id row calls
  obtain ⟨hid, hschema, _, _, hmap⟩ := slotMap_afterCalls (decode_emptyImage 64 id schema) calls
  refine ⟨_, decode_emptyImage 64 id schema, by decide +kernel, ?_⟩
  generalize hp : (blank 64 id schema).reread.afterCalls calls = p at hid hschema hmap ⊢
  have hlength : p.slots.length = 7 := by subst hp; decide +kernel
  have hfirst : (p.tuple? 0).isSome := by subst hp; decide +kernel
  have hsecond : p.tuple? 1 = none := by subst hp; decide +kernel
  obtain ⟨out, hout⟩ := (hmap.insert_succeeds (row 4)).mpr ⟨hschema.symm, 1, by rw [hlength]; decide, hsecond⟩
  obtain ⟨slot, rfl, _, hfree, hleast, _, hback⟩ := hmap.insert_fills (row 4) out _ (Prod.ext hout rfl)
  -- The first slot is not free, and none before the slot that is filled is.
  obtain rfl : slot = 1 := by
    rcases Nat.lt_trichotomy slot 1 with hlt | heq | hgt
    · rw [Nat.lt_one_iff.mp hlt] at hfree
      rw [hfree] at hfirst
      cases hfirst
    · exact heq
    · have hnone := hleast 1 hgt
      rw [hsecond] at hnone
      cases hnone
  rw [hid] at hout hback
  exact ⟨_, Prod.ext hout rfl, hback⟩

end Page

end RowStore
