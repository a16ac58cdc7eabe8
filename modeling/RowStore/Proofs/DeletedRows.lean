import RowStore.Proofs.PoolRuns
import RowStore.Proofs.RepeatedScans
import RowStore.Proofs.TableScans

/-!
# Which row a delete removes

A delete goes to the slot that a record id names and frees it, whatever row lies there by then. So it removes one row
of one page, or fails and leaves every row as it is; and it fails if the slot is free. The row that it removes is the one
that the record id was read with as long as nothing has taken that row out of its slot in between. Once something has,
the next insert may put another row there, which the old record id then names.
-/

namespace RowStore

namespace Page

theorem Shaped.markDirty {p : Page} (h : p.Shaped) (txn : Option TxnId) : (p.markDirty txn).Shaped :=
  ⟨h.header_length, h.slots_length, h.bits, h.placed⟩

theorem Shaped.setBeforeImage {p : Page} (h : p.Shaped) : p.setBeforeImage.Shaped :=
  ⟨h.header_length, h.slots_length, h.bits, h.placed⟩

theorem Shaped.delete_eq_error {p : Page} (h : p.Shaped) {r : RecordId} {err : StorageError} (hr : r.page = p.id)
    (hd : p.delete (some r) = .error err) :
    (p.slots.length ≤ r.slot ∧ err = .invalidSlotId r.slot p.slots.length) ∨
      (r.slot < p.slots.length ∧ p.tuple? r.slot = none ∧ err = .noSuchTuple r) := by
  unfold delete at hd
  simp only at hd
  rw [if_neg (not_not_intro hr)] at hd
  split at hd
  · rename_i hslot
    cases hd
    exact .inl ⟨hslot, rfl⟩
  · rename_i hslot
    have hlt : r.slot < p.slots.length := Nat.lt_of_not_le hslot
    split at hd
    · rename_i htaken
      cases hd
      refine .inr ⟨hlt, ?_, rfl⟩
      have hfree := h.getD_header hlt
      unfold isTaken at htaken
      rw [hfree, decide_eq_true hlt, Bool.true_and, Bool.not_eq_true', Option.isSome_eq_false_iff] at htaken
      exact Option.isNone_iff_eq_none.mp htaken
    · cases hd

theorem Shaped.mem_entries {p : Page} (h : p.Shaped) {r : RecordId} {bytes : Bytes} :
    (some r, bytes) ∈ p.entries ↔ r.page = p.id ∧ ∃ row, p.tuple? r.slot = some row ∧ row.encode = bytes := by
  unfold entries
  rw [List.mem_map]
  constructor
  · rintro ⟨row, hmem, hentry⟩
    obtain ⟨hrecord, hbytes⟩ := Prod.mk.inj hentry
    obtain ⟨slot, hslot⟩ := mem_tuples.mp hmem
    cases (h.record_of_tuple? hslot).symm.trans hrecord
    exact ⟨rfl, row, hslot, hbytes⟩
  · rintro ⟨hpage, row, hrow, hbytes⟩
    refine ⟨row, mem_tuples.mpr ⟨_, hrow⟩, Prod.ext ?_ hbytes⟩
    rw [Tuple.entry, h.record_of_tuple? hrow, ← hpage]

theorem Shaped.mem_entries_insert {p p' : Page} (h : p.Shaped) {t : Tuple} {r r' : RecordId} {bytes : Bytes}
    (hi : p.insert t = .ok (p', r')) (hm : (some r, bytes) ∈ p.entries) : (some r, bytes) ∈ p'.entries := by
  obtain ⟨hschema, _, rfl, hlt, hfree, _⟩ := h.insert_eq_ok hi
  obtain ⟨hpage, row, hrow, hbytes⟩ := h.mem_entries.mp hm
  refine (h.put hschema).mem_entries.mpr ⟨hpage, row, ?_, hbytes⟩
  rw [tuple?_put hlt, if_neg (fun hslot => ?_), hrow]
  rw [hslot, hrow] at hfree
  cases hfree

theorem Shaped.mem_entries_delete {p p' : Page} (h : p.Shaped) {r r' : RecordId} {bytes : Bytes}
    (hd : p.delete (some r') = .ok p') (hne : r' ≠ r) (hm : (some r, bytes) ∈ p.entries) :
    (some r, bytes) ∈ p'.entries := by
  obtain ⟨hpage', rfl, hlt, _⟩ := h.delete_eq_ok hd
  obtain ⟨hpage, row, hrow, hbytes⟩ := h.mem_entries.mp hm
  refine (h.clear r'.slot).mem_entries.mpr ⟨hpage, row, ?_, hbytes⟩
  rw [tuple?_clear hlt, if_neg (fun hslot => hne (RecordId.eq_of_slot (hpage'.trans hpage.symm) hslot)), hrow]

end Page

namespace Engine

variable {e e' : Engine} {l : List Event} {txn : TxnId} {q : PageId} {r : RecordId} {table : Table}

/-- The page as a fetch would find it: the copy in memory, or else what lies in the file. -/
def found? (e : Engine) (q : PageId) : Option Page := (e.copy? q).or (e.onFile q).toOption

def rowAt? (e : Engine) (r : RecordId) : Option Tuple := (e.found? r.page).bind (Page.tuple? · r.slot)

theorem found?_of_copy {page : Page} (h : e.copy? q = some page) : e.found? q = some page := by
  unfold found?
  rw [h, Option.some_or]

theorem found?_of_absent (h : e.copy? q = none) : e.found? q = (e.onFile q).toOption := by
  unfold found?
  rw [h, Option.none_or]

theorem found?_cases {page : Page} (h : e.found? q = some page) :
    e.copy? q = some page ∨ e.copy? q = none ∧ e.onFile q = .ok page := by
  cases hcopy : e.copy? q with
  | some copy =>
    rw [found?_of_copy hcopy] at h
    exact .inl h
  | none =>
    rw [found?_of_absent hcopy] at h
    cases hfile : e.onFile q with
    | error err =>
      rw [hfile] at h
      cases h
    | ok page' =>
      rw [hfile] at h
      cases h
      exact .inr ⟨rfl, rfl⟩

theorem shaped_of_onFile {page : Page} (h : e.onFile q = .ok page) : page.Shaped := by
  obtain ⟨_, _, hd⟩ := decode_of_onFile h
  exact (Page.shaped_of_decode hd).1

/-- A store in which every page in a frame is well shaped, also where the frame is not resident any more. -/
structure WellShaped (e : Engine) : Prop where
  sane : e.pool.Sane
  shaped : ∀ f page, e.page? f = some page → page.Shaped

namespace WellShaped

theorem of_new {capacity k : Nat} (hpool : e.pool = Pool.new capacity k) : e.WellShaped where
  sane := by
    rw [hpool]
    exact Pool.sane_new capacity k
  shaped f page hf := by
    unfold Engine.page? at hf
    rw [hpool] at hf
    cases hf

theorem setPage (h : e.WellShaped) {f : FrameId} {old page : Page} (hf : e.page? f = some old) (hid : page.id = old.id)
    (hp : page.Shaped) : (e.setPage f page).WellShaped where
  sane := h.sane.setPage hf hid
  shaped g cur hg := by
    change (e.pool.setPage f page).page? g = some cur at hg
    rw [Pool.page?_setPage hf] at hg
    split at hg
    · cases hg
      exact hp
    · exact h.shaped g cur hg

theorem step (h : e.WellShaped) (hstep : Step e l e') : e'.WellShaped := by
  have hsane := hstep.sane h.sane
  cases hstep with
  | call | countRead | log | force | touch | grant | append | discard | complete | release => exact ⟨hsane, h.shaped⟩
  | load _ hp hl =>
    refine ⟨hsane, fun g page hg => ?_⟩
    change Pool.page? _ g = some page at hg
    rw [Pool.page?_load hl] at hg
    split at hg
    · cases hg
      exact shaped_of_onFile hp
    · exact h.shaped g page hg
  | store _ hf _ hi =>
    obtain ⟨hschema, _, hput, _⟩ := (h.shaped _ _ hf).insert_eq_ok hi
    refine h.setPage hf (Page.id_of_insert hi).1 ?_
    rw [hput]
    exact ((h.shaped _ _ hf).put hschema).markDirty _
  | remove _ hf _ hd =>
    obtain ⟨_, hclear, _⟩ := (h.shaped _ _ hf).delete_eq_ok hd
    refine h.setPage hf (Page.id_of_delete hd).1 ?_
    rw [hclear]
    exact ((h.shaped _ _ hf).clear _).markDirty _
  | base _ hf => exact h.setPage hf rfl (h.shaped _ _ hf).setBeforeImage
  | @write id f page _ _ _ hf =>
    have hset : (e.setPage f (page.markDirty none)).WellShaped := h.setPage hf rfl ((h.shaped f page hf).markDirty none)
    exact ⟨hsane, hset.shaped⟩
  | restore _ hf hp => exact h.setPage hf (id_of_onFile hp) (shaped_of_onFile hp)
  | hand txn f =>
    refine ⟨hsane, fun g page hg => ?_⟩
    cases hf : e.page? f with
    | none =>
      have hsame : (Pool.handBack txn [f] e.pool).1 = e.pool := by
        unfold Pool.handBack
        rw [show e.pool.page? f = none from hf]
        rfl
      change (Pool.handBack txn [f] e.pool).1.page? g = some page at hg
      rw [hsame] at hg
      exact h.shaped g page hg
    | some old =>
      change (Pool.handBack txn [f] e.pool).1.frames[g]? = some page at hg
      rw [Pool.frames_handBack hf] at hg
      have hset : (e.setPage f (old.markDirty (some txn))).WellShaped :=
        h.setPage hf rfl ((h.shaped f old hf).markDirty (some txn))
      exact hset.shaped g page hg

theorem along (h : e.WellShaped) (hpath : Path e l e') : e'.WellShaped :=
  hpath.preserves (fun _ _ _ hstep h => h.step hstep) h

/-- Moves keep frames well shaped if whoever changes a page in a frame leaves it so. -/
theorem move (h : e.WellShaped) {m : Move} (hm : ∀ f page, m = .change f page → page.Shaped) :
    (e.move m).WellShaped := by
  have hsane := (sane_move h.sane m).1
  have hmoved := moved_move e m
  generalize e.move m = e' at hsane hmoved ⊢
  cases hmoved with
  | along hpath => exact h.along hpath
  | changed hf hid => exact h.setPage hf hid (hm _ _ rfl)
  | writing | surroundings => exact ⟨hsane, h.shaped⟩

theorem moves (h : e.WellShaped) {ms : List Move} (hm : ∀ f page, .change f page ∈ ms → page.Shaped) :
    (e.moves ms).WellShaped := by
  induction ms generalizing e with
  | nil => exact h
  | cons m rest ih =>
    refine ih (h.move fun f page he => ?_) fun f page hmem => hm f page (List.mem_cons_of_mem m hmem)
    exact hm f page (by rw [he]; exact List.mem_cons_self)

theorem shaped_of_found (h : e.WellShaped) {page : Page} (hf : e.found? q = some page) :
    page.Shaped ∧ page.id = q := by
  rcases found?_cases hf with hcopy | ⟨_, hfile⟩
  · obtain ⟨f, _, hpage⟩ := Pool.copy?_eq_some.mp hcopy
    exact ⟨h.shaped f page hpage, h.sane.id_of_copy? hcopy⟩
  · exact ⟨shaped_of_onFile hfile, id_of_onFile hfile⟩

end WellShaped

/-! ## Fetching a page to delete from it -/

/-- Between two states no file has changed, and every page but `q` is in memory as it was, or it was clean and was given
up. -/
structure KeepsOthers (e : Engine) (q : PageId) (e' : Engine) : Prop where
  files : e'.disk.files = e.disk.files
  copies : ∀ p, p ≠ q → e'.copy? p = e.copy? p ∨ e'.copy? p = none ∧ e.mark? p = none

theorem KeepsOthers.congr (h : e.KeepsOthers q e') {m : Engine} (hf : m.disk.files = e'.disk.files)
    (hc : ∀ p, p ≠ q → m.copy? p = e'.copy? p) : e.KeepsOthers q m where
  files := hf.trans h.files
  copies p hne := by
    rw [hc p hne]
    exact h.copies p hne

/-- A load brings in its page and gives up one clean page at most. -/
theorem copies_of_load (hs : e.pool.Sane) {page : Page} {pool : Pool} {f : FrameId}
    (hl : e.pool.load page = .ok (pool, f)) {p : PageId} (hne : p ≠ page.id) :
    pool.copy? p = e.copy? p ∨ pool.copy? p = none ∧ e.mark? p = none := by
  cases hnew : pool.copy? p with
  | some copy => exact .inl (((hs.copy?_load hl hnew).resolve_left fun h => hne h.1).2.symm)
  | none =>
    cases hold : e.copy? p with
    | none => exact .inl rfl
    | some copy =>
      refine .inr ⟨rfl, ?_⟩
      unfold mark?
      rw [hold]
      exact clean_of_given_up hl hold hnew

/-- A fetch leaves the page as it was found, and gives it out if it succeeds. -/
theorem fetch_found (hs : e.pool.Sane) (q : PageId) :
    e.KeepsOthers q (e.fetch q).1 ∧ (e.fetch q).1.found? q = e.found? q ∧
      ∀ f, (e.fetch q).2 = .ok f → ∃ page, e.found? q = some page ∧ (e.fetch q).1.page? f = some page := by
  unfold fetch
  cases hr : e.pool.resident.find? q with
  | some f =>
    obtain ⟨page, hpage, _⟩ := hs.keyed q f hr
    have hcopy : e.copy? q = some page := Pool.copy?_of_resident hr hpage
    refine ⟨⟨rfl, fun _ _ => .inl rfl⟩, rfl, fun g hg => ?_⟩
    cases hg
    exact ⟨page, found?_of_copy hcopy, hpage⟩
  | none =>
    have habsent : e.copy? q = none := by
      unfold Engine.copy? Pool.copy?
      rw [hr]
      rfl
    obtain ⟨_, ⟨faults, traffic, he⟩, hok⟩ := readPage_cases e q
    generalize e.readPage q = outcome at he hok
    obtain ⟨m, result⟩ := outcome
    change m = _ at he
    subst he
    -- Even a read that fails has used up a fault and counted the access; neither is anything that a page is found by.
    have hsame : found? { e with faults := faults, disk := ⟨e.disk.files, traffic⟩ } q = e.found? q := by
      have hfile : onFile { e with faults := faults, disk := ⟨e.disk.files, traffic⟩ } q = e.onFile q := by
        apply onFile_congr <;> rfl
      rw [found?_of_absent habsent, ← hfile]
      exact found?_of_absent habsent
    cases result with
    | error err => exact ⟨⟨rfl, fun _ _ => .inl rfl⟩, hsame, nofun⟩
    | ok page =>
      have hpage := hok page rfl
      have hid := id_of_onFile hpage
      have hfound : e.found? q = some page := by
        rw [found?_of_absent habsent, hpage]
        rfl
      simp only
      cases hl : e.pool.load page with
      | error err => exact ⟨⟨rfl, fun _ _ => .inl rfl⟩, hsame, nofun⟩
      | ok loaded =>
        obtain ⟨pool, f⟩ := loaded
        have hcopy := Pool.copy?_load_self hl
        rw [hid] at hcopy
        refine ⟨⟨rfl, fun p hne => copies_of_load hs hl (by rwa [hid])⟩, ?_, fun g hg => ?_⟩
        · rw [hfound]
          exact found?_of_copy hcopy
        · cases hg
          have hnew := Pool.page?_load hl f
          rw [if_pos rfl] at hnew
          exact ⟨page, hfound, hnew⟩

theorem getPage_found (hs : e.pool.Sane) (txn : TxnId) (q : PageId) (access : Access) :
    e.KeepsOthers q (e.getPage txn q access).1 ∧ (e.getPage txn q access).1.found? q = e.found? q ∧
      ∀ f, (e.getPage txn q access).2 = .ok f →
        ∃ page, e.found? q = some page ∧ (e.getPage txn q access).1.page? f = some page := by
  rw [getPage_eq]
  split
  · obtain ⟨⟨hfiles, hcopies⟩, hrest⟩ :=
      fetch_found (e := { e with locks := (e.locks.request txn q access.lockMode).1 }) hs q
    exact ⟨⟨hfiles, hcopies⟩, hrest⟩
  · exact ⟨⟨rfl, fun _ _ => .inl rfl⟩, rfl, nofun⟩

/-! ## Deleting -/

/-- Why a delete by record id fails: the record id names no page or row of a table, or the page cannot be fetched. -/
inductive Refused (e : Engine) (txn : TxnId) (r : RecordId) : StorageError → Prop
  | noTable {err : StorageError} (ht : e.catalog.table? r.page.table = .error err) : Refused e txn r err
  | noPage {table : Table} (ht : e.catalog.table? r.page.table = .ok table)
      (hout : r.page.table ≠ table.id ∨ e.disk.pageCount e.pageSize table ≤ r.page.number) :
      Refused e txn r (.noSuchTuple r)
  | unfetched {err : StorageError} (hget : (e.getPage txn r.page .readWrite).2 = .error err) : Refused e txn r err
  | noSlot {page : Page} (hfound : e.found? r.page = some page) (hslot : page.slots.length ≤ r.slot) :
      Refused e txn r (.invalidSlotId r.slot page.slots.length)
  | noRow {page : Page} (hfound : e.found? r.page = some page) (hslot : r.slot < page.slots.length)
      (hrow : page.tuple? r.slot = none) : Refused e txn r (.noSuchTuple r)

/-- What a delete by record id answers and leaves. It frees the slot, which held a row, and marks the page; or it fails
and leaves the page as it was found. -/
inductive Deletes (e : Engine) (txn : TxnId) (r : RecordId) : Result Unit → Prop
  | freed {e' : Engine} {table : Table} {page : Page} {row : Tuple} (ht : e.catalog.table? r.page.table = .ok table)
      (hlt : r.page.number < e.disk.pageCount e.pageSize table) (hfound : e.found? r.page = some page)
      (hrow : page.tuple? r.slot = some row) (hcopy : e'.copy? r.page = some ((page.clear r.slot).markDirty (some txn)))
      (hothers : e.KeepsOthers r.page e') : Deletes e txn r (e', .ok ())
  | refused {e' : Engine} {err : StorageError} (hcause : e.Refused txn r err)
      (hfound : e'.found? r.page = e.found? r.page) (hothers : e.KeepsOthers r.page e') :
      Deletes e txn r (e', .error err)

/-- Only a page that cannot be fetched makes a delete fail for another reason than its record id. -/
theorem Refused.kind {err : StorageError} (h : e.Refused txn r err) :
    err.kind = .invalidReference ∨ (e.getPage txn r.page .readWrite).2 = .error err := by
  cases h with
  | noTable ht =>
    unfold Catalog.table? at ht
    split at ht
    · cases ht
    · cases ht
      exact .inl rfl
  | noPage | noSlot | noRow => exact .inl rfl
  | unfetched hget => exact .inr hget

theorem deletes_deleteFrom (h : e.WellShaped) (ht : e.catalog.table? r.page.table = .ok table) (txn : TxnId) :
    e.Deletes txn r ((e.deleteFrom txn table (some r)).1, (e.deleteFrom txn table (some r)).2.map fun _ => ()) := by
  unfold deleteFrom
  simp only
  split
  · rename_i hout
    exact .refused (.noPage ht hout) rfl ⟨rfl, fun _ _ => .inl rfl⟩
  · rename_i hin
    have hlt : r.page.number < e.disk.pageCount e.pageSize table := Nat.lt_of_not_le (not_or.mp hin).2
    obtain ⟨hothers, hsame, hok⟩ := getPage_found h.sane txn r.page .readWrite
    have hpath := path_getPage e txn r.page .readWrite
    cases hget : e.getPage txn r.page .readWrite with
    | mk m result =>
      rw [hget] at hothers hsame hok hpath
      cases result with
      | error err => exact .refused (.unfetched (by rw [hget])) hsame hothers
      | ok f =>
        obtain ⟨page, hfound, hpage⟩ := hok f rfl
        obtain ⟨hshaped, hid⟩ := h.shaped_of_found hfound
        simp only [show m.page? f = some page from hpage]
        cases hd : page.delete (some r) with
        | error err =>
          refine .refused ?_ hsame hothers
          rcases hshaped.delete_eq_error hid.symm hd with ⟨hslot, rfl⟩ | ⟨hslot, hrow, rfl⟩
          · exact .noSlot hfound hslot
          · exact .noRow hfound hslot hrow
        | ok page' =>
          obtain ⟨_, rfl, _, hheld⟩ := hshaped.delete_eq_ok hd
          obtain ⟨row, hrow⟩ := Option.isSome_iff_exists.mp hheld
          have hset := (hpath.sane h.sane).copy?_setPage (getPage_ok hget).2.2 hpage
            ((page.clear r.slot).markDirty (some txn))
          refine .freed ht hlt hfound hrow ((hset r.page).trans (if_pos rfl)) (hothers.congr rfl fun p hne => ?_)
          exact (hset p).trans (if_neg hne)

/-- The outcome of a delete by record id in every state over plain tables with well-shaped pages. -/
theorem deletes_deleteTuple (h : e.WellShaped) (hp : e.Plain) (txn : TxnId) (r : RecordId) :
    e.Deletes txn r (e.deleteTuple txn (some r)) := by
  cases ht : e.catalog.table? r.page.table with
  | error err =>
    unfold deleteTuple
    simp only [ht]
    exact .refused (.noTable ht) rfl ⟨rfl, fun _ _ => .inl rfl⟩
  | ok table =>
    obtain ⟨_, replacer, hdelete⟩ := deleteTuple_plain txn h.sane ht (hp _ _ ht)
    have hfrom := deletes_deleteFrom h ht txn
    rw [hdelete]
    generalize e.deleteFrom txn table (some r) = outcome at hfrom ⊢
    obtain ⟨m, result⟩ := outcome
    cases result with
    | error err =>
      cases hfrom with
      | refused hcause hfound hothers => exact .refused hcause hfound (hothers.congr rfl fun _ _ => rfl)
    | ok changed =>
      cases hfrom with
      | freed ht hlt hfound hrow hcopy hothers =>
        exact .freed ht hlt hfound hrow hcopy (hothers.congr rfl fun _ _ => rfl)

/-! ## A row that nothing has taken from its slot -/

/-- An entry that is read however a page is read stays there until something takes the row out of its slot. -/
theorem Path.entry_kept {bytes : Bytes} (hpath : Path e l e') (h : e.Housed) (hf : e.Fitting r.page.table)
    (hs : e.EveryReading r.page ((some r, bytes) ∈ ·))
    (hl : ∀ event ∈ l, event.Suits r.page.table ∧ ¬ event.Vacates r ∧ event ≠ .appended r.page) :
    e'.EveryReading r.page ((some r, bytes) ∈ ·) := by
  -- The induction needs the table's pages to stay exact: only an exact page is read back with the entries it was
  -- written with.
  refine (hpath.preserves_housed
    (I := fun e => e.Fitting r.page.table ∧ e.EveryReading r.page ((some r, bytes) ∈ ·))
    (fun _ _ hs => hs.1) ?_ h hl ⟨hf, hs⟩).2
  rintro e l e' hstep h hl ⟨hf, hs⟩
  refine ⟨hstep.fitting h (fun event hm => (hl event hm).1) hf, hstep.everyReading h hf hs (fun event hm => ?_) ?_ ?_⟩
  · obtain ⟨hsuits, hvacates, happended⟩ := hl event hm
    cases event with
    | handed => exact fun _ => hsuits
    | appended page => exact fun hp => happended (congrArg Event.appended hp)
    | restored | discarded => exact hvacates
    | granted | stored | removed | based | written | completed | released => exact not_false
  · intro txn r' t old new hm hr hexact hi hentry
    exact hexact.toShaped.mem_entries_insert hi hentry
  · intro txn r' old new hm hr hexact hd hentry
    exact hexact.toShaped.mem_entries_delete hd (hl _ hm).2.1 hentry

theorem EveryReading.found {P : List (Option RecordId × Bytes) → Prop} (h : e.EveryReading q P) {page : Page}
    (hf : e.found? q = some page) : P page.entries := by
  rcases found?_cases hf with hcopy | ⟨habsent, hfile⟩
  · exact h.copy page hcopy
  · obtain ⟨page', hpage', hp⟩ := h.file (by unfold mark?; rw [habsent]; rfl)
    cases hfile.symm.trans hpage'
    exact hp

theorem Fitting.schema_of_rowAt (hf : e.Fitting r.page.table) (hs : e.pool.Sane)
    (ht : e.catalog.table? r.page.table = .ok table) {row : Tuple} (hrow : e.rowAt? r = some row) :
    row.schema = table.schema := by
  obtain ⟨page, hfound, hslot⟩ := Option.bind_eq_some_iff.mp hrow
  obtain ⟨hlegal, hid⟩ : e.Legal page ∧ page.id = r.page := by
    rcases found?_cases hfound with hcopy | ⟨_, hfile⟩
    · exact ⟨hf.copies _ _ rfl hcopy, hs.id_of_copy? hcopy⟩
    · exact ⟨hf.files _ _ rfl hfile, id_of_onFile hfile⟩
  obtain ⟨table', ht', hschema⟩ := hlegal.schema
  rw [hid] at ht'
  cases ht.symm.trans ht'
  rw [hschema]
  exact (hlegal.exact.placed r.slot row (Option.join_eq_some_iff.mp hslot)).1

section Kept

variable (h : e.Opened) {before during : List Action}
  (hfile : ∀ q page, q.table = table.id → e.onFile q = .ok page → ∀ t ∈ page.tuples, t.Fits)

include h

theorem Opened.wellShaped_acts (as : List Action) : (e.acts as).WellShaped := by
  obtain ⟨capacity, k, hpool⟩ := h.pool
  exact (WellShaped.of_new hpool).along (path_acts e as)

include hfile

/-- A row that lies in a slot of a table is read there however its page is read. -/
theorem Opened.everyReading_of_rowAt (ht : e.catalog.table? r.page.table = .ok table)
    (hrows : ∀ txn t, .ask (.insert txn table.id t) ∈ before → t.Fits)
    (hn : r.page.number < (e.acts before).disk.pageCount (e.acts before).pageSize table) {row : Tuple}
    (hrow : (e.acts before).rowAt? r = some row) :
    (e.acts before).EveryReading r.page ((some r, row.encode) ∈ ·) := by
  have hid := h.keyed _ _ ht
  obtain ⟨shown, hshown⟩ := h.exists_shown hfile hrows (by rw [hid]; exact ht)
  obtain ⟨hcopy, hread⟩ := hshown r.page.number hn
  rw [show (⟨table.id, r.page.number⟩ : PageId) = r.page by rw [hid]] at hcopy hread
  obtain ⟨page, hfound, hslot⟩ := Option.bind_eq_some_iff.mp hrow
  obtain ⟨hshaped, hpage⟩ := (h.wellShaped_acts before).shaped_of_found hfound
  have hentries : page.entries = shown r.page.number :=
    EveryReading.found (P := (· = shown r.page.number)) ⟨hcopy, hread⟩ hfound
  have hmem : (some r, row.encode) ∈ shown r.page.number := by
    rw [← hentries]
    exact hshaped.mem_entries.mpr ⟨hpage.symm, row, hslot, rfl⟩
  refine ⟨fun copy hc => by rw [hcopy copy hc]; exact hmem, fun hmark => ?_⟩
  obtain ⟨page', hpage', hsame⟩ := hread hmark
  exact ⟨page', hpage', by rw [hsame]; exact hmem⟩

/-- The row in a slot keeps its schema and its bytes until something takes it out of the slot. -/
theorem Opened.rowAt_kept (ht : e.catalog.table? r.page.table = .ok table)
    (hrows : ∀ txn t, .ask (.insert txn table.id t) ∈ before ++ during → t.Fits)
    (hkept : ∀ event ∈ (e.acts before).history during, ¬ event.Vacates r ∧ event ≠ .appended r.page)
    (hn : r.page.number < (e.acts (before ++ during)).disk.pageCount (e.acts (before ++ during)).pageSize table)
    {row row' : Tuple} (hrow : (e.acts before).rowAt? r = some row)
    (hrow' : (e.acts (before ++ during)).rowAt? r = some row') :
    row'.schema = row.schema ∧ row'.encode = row.encode := by
  have hid := h.keyed _ _ ht
  have hcatalog := fun as => (path_acts e as).fixed.1
  have hhoused := h.firm.toHoused.acts before
  have hfirst : ∀ txn t, .ask (.insert txn table.id t) ∈ before → t.Fits := fun txn t hm =>
    hrows txn t (List.mem_append_left _ hm)
  have hfitting := h.fitting_acts hfile hfirst
  have hfitting' := h.fitting_acts hfile hrows
  have hpath := path_acts (e.acts before) during
  rw [hid] at hfitting hfitting'
  rw [acts_append] at hn hrow' hfitting'
  -- The page has not been appended in between, so it was in its file already when the row was read.
  have hbefore : r.page.number < (e.acts before).disk.pageCount (e.acts before).pageSize table :=
    hpath.lt_pageCount hhoused (not_handed_of_mem_history hhoused.toLayout hhoused.sane during)
      (by rw [hcatalog]; exact ht) (fun hm => (hkept _ hm).2 rfl) hn
  have hsuits : ∀ event ∈ (e.acts before).history during, event.Suits r.page.table := by
    intro event hm
    refine hid ▸ h.suits hrows event ?_
    rw [history_append]
    exact List.mem_append_right _ hm
  have hread := hpath.entry_kept hhoused hfitting (h.everyReading_of_rowAt hfile ht hfirst hbefore hrow)
    fun event hm => ⟨hsuits event hm, hkept event hm⟩
  obtain ⟨page, hfound, hslot⟩ := Option.bind_eq_some_iff.mp hrow'
  obtain ⟨hshaped, _⟩ := ((h.wellShaped_acts before).along hpath).shaped_of_found hfound
  obtain ⟨_, found, hthere, hbytes⟩ := hshaped.mem_entries.mp (hread.found hfound)
  cases hslot.symm.trans hthere
  refine ⟨?_, hbytes⟩
  rw [hfitting'.schema_of_rowAt (hpath.sane hhoused.sane) (by rw [hpath.fixed.1, hcatalog]; exact ht) hrow',
    hfitting.schema_of_rowAt hhoused.sane (by rw [hcatalog]; exact ht) hrow]

end Kept

/-- A delete goes by the record id. In every state over plain tables that moves lead to, it frees the slot that the record
id names, whatever row lies there, or it fails and changes no row. Where no row lies it fails, with an invalid reference
if the page can be fetched. In a store over tables with files of their own whose rows fit their columns, the row that a
delete removes has the schema and the bytes of the given one if a row that had them lay in the slot at some time before,
and it was neither removed since nor its page restored in an abort, dropped or appended anew. -/
theorem delete_by_record_id :
    (∀ (e : Engine) (capacity k : Nat) (ms : List Move) (txn : TxnId) (t : Tuple) (r : RecordId),
      e.pool = Pool.new capacity k → (∀ f page, .change f page ∈ ms → page.Shaped) → (e.moves ms).Plain →
      t.record = some r →
      (e.moves ms).Deletes txn r ((e.moves ms).deleteTuple txn t.record) ∧
        ((e.moves ms).rowAt? r = none → ∃ err, ((e.moves ms).deleteTuple txn t.record).2 = .error err ∧
          (err.kind = .invalidReference ∨ ((e.moves ms).getPage txn r.page .readWrite).2 = .error err))) ∧
    ∀ (e : Engine) (before during : List Action) (txn : TxnId) (t row : Tuple) (r : RecordId) (table : Table),
      e.Opened → e.catalog.table? r.page.table = .ok table →
      (∀ q page, q.table = table.id → e.onFile q = .ok page → ∀ t ∈ page.tuples, t.Fits) →
      (∀ txn t, .ask (.insert txn table.id t) ∈ before ++ during → t.Fits) → t.record = some r →
      (e.acts before).rowAt? r = some row → row.schema = t.schema → row.encode = t.encode →
      (∀ event ∈ (e.acts before).history during, ¬ event.Vacates r ∧ event ≠ .appended r.page) →
      ((e.acts (before ++ during)).deleteTuple txn t.record).2 = .ok () →
      ∃ removed, (e.acts (before ++ during)).rowAt? r = some removed ∧ removed.schema = t.schema ∧
        removed.encode = t.encode := by
  refine ⟨fun e capacity k ms txn t r hpool hchanges hplain hr => ?_,
    fun e before during txn t row r table hopen ht hfile hrows hr hrow hschema hbytes hkept hok => ?_⟩
  · have hdeletes := deletes_deleteTuple ((WellShaped.of_new hpool).moves hchanges) hplain txn r
    rw [hr]
    refine ⟨hdeletes, fun hnone => ?_⟩
    generalize (e.moves ms).deleteTuple txn (some r) = outcome at hdeletes ⊢
    cases hdeletes with
    | freed _ _ hfound hslot =>
      unfold rowAt? at hnone
      rw [hfound, Option.bind_some, hslot] at hnone
      cases hnone
    | refused hcause => exact ⟨_, rfl, hcause.kind⟩
  · have hcatalog : (e.acts (before ++ during)).catalog = e.catalog := (path_acts e _).fixed.1
    have hplain : (e.acts (before ++ during)).Plain := fun id table ht => hopen.plain id table (by rwa [← hcatalog])
    have hdeletes := deletes_deleteTuple (hopen.wellShaped_acts (before ++ during)) hplain txn r
    rw [hr] at hok
    generalize (e.acts (before ++ during)).deleteTuple txn (some r) = outcome at hdeletes hok
    cases hdeletes with
    | @freed _ table' page removed ht' hlt hfound hslot =>
      rw [hcatalog, ht] at ht'
      cases ht'
      have hnow : (e.acts (before ++ during)).rowAt? r = some removed := by
        unfold rowAt?
        rw [hfound, Option.bind_some, hslot]
      obtain ⟨hschema', hbytes'⟩ := hopen.rowAt_kept hfile ht hrows hkept hlt hrow hnow
      exact ⟨removed, hnow, hschema'.trans hschema, hbytes'.trans hbytes⟩
    | refused => cases hok

def oneFrame : Engine := single 4 ⟨1, 2, none⟩ flagSchema

/-- The first row of the table is deleted with the record id that it had before a second was stored behind it. -/
theorem delete_by_record_id_of_first :
    let before : List Action := [.ask (.insert ⟨1⟩ ⟨0⟩ (flagRow true)), .ask (.commit ⟨1⟩ .asListed)]
    let during : List Action := [.ask (.insert ⟨2⟩ ⟨0⟩ (flagRow false))]
    (oneFrame.acts before).Deletes ⟨2⟩ ⟨⟨⟨0⟩, 0⟩, 0⟩ ((oneFrame.acts before).deleteTuple ⟨2⟩ (some ⟨⟨⟨0⟩, 0⟩, 0⟩)) ∧
      ∃ removed, (oneFrame.acts (before ++ during)).rowAt? ⟨⟨⟨0⟩, 0⟩, 0⟩ = some removed ∧
        removed.schema = flagSchema ∧ removed.encode = [1] := by
  have hfresh : oneFrame.Fresh := fresh_single (by decide) _ _
  have hplain : (oneFrame.moves [.act (.ask (.insert ⟨1⟩ ⟨0⟩ (flagRow true))),
      .act (.ask (.commit ⟨1⟩ .asListed))]).Plain := fun id table ht => hfresh.toLayout.plain id table ht
  have hevents : (oneFrame.acts [.ask (.insert ⟨1⟩ ⟨0⟩ (flagRow true)), .ask (.commit ⟨1⟩ .asListed)]).history
      [.ask (.insert ⟨2⟩ ⟨0⟩ (flagRow false))] =
        [.granted ⟨2⟩ ⟨⟨0⟩, 0⟩ .exclusive, .stored ⟨2⟩ ⟨⟨⟨0⟩, 0⟩, 1⟩ (flagRow false)] := rfl
  refine ⟨(delete_by_record_id.1 oneFrame 1 2 _ ⟨2⟩ ((flagRow true).withRecord ⟨⟨⟨0⟩, 0⟩, 0⟩) _ rfl ?_ hplain rfl).1,
    ?_⟩
  · simp only [List.mem_cons, List.not_mem_nil, or_false, reduceCtorEq, false_implies, implies_true]
  refine delete_by_record_id.2 oneFrame _ _ ⟨2⟩ ((flagRow true).withRecord ⟨⟨⟨0⟩, 0⟩, 0⟩)
    ((flagRow true).withRecord ⟨⟨⟨0⟩, 0⟩, 0⟩) ⟨⟨⟨0⟩, 0⟩, 0⟩ (singleTable flagSchema) hfresh.opened
    (table?_single.mpr ⟨rfl, rfl⟩) (fun q page _ hp => ?_) (fun txn t hm => ?_) rfl rfl rfl rfl ?_ rfl
  · obtain ⟨_, image, _, himage, _⟩ := (onFile_eq hfresh.toLayout q).mp hp
    rw [hfresh.image?] at himage
    cases himage
  · simp only [List.cons_append, List.nil_append, List.mem_cons, List.not_mem_nil, or_false, reduceCtorEq, false_or,
      Action.ask.injEq, Request.insert.injEq] at hm
    rcases hm with ⟨_, _, rfl⟩ | ⟨_, _, rfl⟩
    · exact Tuple.fits_of_ofValues (show Tuple.ofValues flagSchema [.boolean true] = .ok (flagRow true) from rfl)
    · exact Tuple.fits_of_ofValues (show Tuple.ofValues flagSchema [.boolean false] = .ok (flagRow false) from rfl)
  · rw [hevents]
    simp only [List.forall_mem_cons]
    exact ⟨⟨not_false, nofun⟩, ⟨not_false, nofun⟩, nofun⟩

def refilled : Engine := flagStore.acts (rowCommitted ++
  [.ask (.delete ⟨2⟩ (some ⟨⟨⟨0⟩, 0⟩, 0⟩)), .ask (.insert ⟨2⟩ ⟨0⟩ (flagRow false))])

def filedTwice : Engine := (beside flagSchema (some ⟨0⟩)).acts (filed (flagRow true) ++ [.ask (.flushAll .asListed)])

/-- A record id that was read before its row was removed removes the row that has been stored in its slot since. A slot
without a row is refused for another reason while somebody else holds its page. A row that does not fit its column, or
that lies in a file with another table over it, is not the same any more once its page has been given up and read
again. -/
theorem delete_removes_other_row :
    (refilled.rowAt? ⟨⟨⟨0⟩, 0⟩, 0⟩ = some ((flagRow false).withRecord ⟨⟨⟨0⟩, 0⟩, 0⟩) ∧
      (refilled.deleteTuple ⟨2⟩ ((flagRow true).withRecord ⟨⟨⟨0⟩, 0⟩, 0⟩).record).2 = .ok () ∧
      ((refilled.deleteTuple ⟨2⟩ ((flagRow true).withRecord ⟨⟨⟨0⟩, 0⟩, 0⟩).record).1.rowAt? ⟨⟨⟨0⟩, 0⟩, 0⟩ = none) ∧
      (flagRow false).encode ≠ (flagRow true).encode) ∧
    ((oneFrame.act (.ask (.insert ⟨1⟩ ⟨0⟩ (flagRow true)))).rowAt? ⟨⟨⟨0⟩, 0⟩, 1⟩ = none ∧
      ((oneFrame.act (.ask (.insert ⟨1⟩ ⟨0⟩ (flagRow true)))).deleteTuple ⟨2⟩ (some ⟨⟨⟨0⟩, 0⟩, 1⟩)).2 =
        .error (.transactionAborted ⟨2⟩)) ∧
    ((((beside letterSchema none).acts (filed strayRow)).rowAt? ⟨⟨⟨0⟩, 0⟩, 0⟩).map Tuple.encode = some [] ∧
      (((beside letterSchema none).acts
        (filed strayRow ++ .ask (.flushAll .asListed) :: filedBeside (letterRow 'a'))).rowAt? ⟨⟨⟨0⟩, 0⟩, 0⟩).map
          Tuple.encode = some [0]) ∧
    (filedTwice.rowAt? ⟨⟨⟨0⟩, 0⟩, 0⟩).map Tuple.encode = some [1] ∧
      ((filedTwice.acts (.ask (.delete ⟨3⟩ (some ⟨⟨⟨1⟩, 0⟩, 0⟩)) :: filedBeside (flagRow false))).rowAt?
        ⟨⟨⟨0⟩, 0⟩, 0⟩).map Tuple.encode = some [0] := by
  refine ⟨⟨?_, ?_, ?_, ?_⟩, ⟨?_, ?_⟩, ⟨?_, ?_⟩, ?_, ?_⟩ <;> decide +kernel

end Engine

end RowStore
