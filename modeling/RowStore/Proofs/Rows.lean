import RowStore.Proofs.TwoPhase
import RowStore.Proofs.Views

/-!
# Rows, one by one

The row at a record id is read off the view of its page, and its saved copy off the page's image on file. What becomes
of the two, and of the mark of the page, is determined by the history: a stored row fills a free slot, a removed one
empties its slot, a reload or a drop of the page puts the saved copy in the row's place, and a write saves the row.
Everything else, evictions and appended pages included, leaves all of them alone.
-/

namespace RowStore

theorem RecordId.eq_of_slot {r r' : RecordId} (hp : r.page = r'.page) (hs : r.slot = r'.slot) : r = r' := by
  cases r
  cases r'
  cases hp
  cases hs
  rfl

namespace Event

def onRow (r : RecordId) (row : Option Bytes × Option Bytes) : Event → Option Bytes × Option Bytes
  | stored _ r' tuple => if r' = r then (some tuple.encode, row.2) else row
  | removed _ r' => if r' = r then (none, row.2) else row
  | restored page => if page = r.page then (row.2, row.2) else row
  | discarded page => if page = r.page then (row.2, row.2) else row
  | written page => if page = r.page then (row.1, row.1) else row
  | _ => row

def onMark (page : PageId) (mark : Option TxnId) : Event → Option TxnId
  | stored txn r _ => if r.page = page then some txn else mark
  | removed txn r => if r.page = page then some txn else mark
  | restored q => if q = page then none else mark
  | discarded q => if q = page then none else mark
  | written q => if q = page then none else mark
  | _ => mark

end Event

namespace Engine

/-- The row at a record id in an image of its page. -/
def rowIn? (e : Engine) (r : RecordId) (image : Option Bytes) : Option Bytes :=
  match e.catalog.table? r.page.table with
  | .error _ => none
  | .ok table => image.bind fun image => table.schema.rowAt? e.pageSize image r.slot

/-- The bytes of the row at a record id, as a reader would get them. -/
def row? (e : Engine) (r : RecordId) : Option Bytes := e.rowIn? r (e.view? r.page)

/-- The bytes of the row at a record id in the file. -/
def saved? (e : Engine) (r : RecordId) : Option Bytes := e.rowIn? r (e.image? r.page)

theorem clean_of_onFile {e : Engine} {id : PageId} {page : Page} (h : e.onFile id = .ok page) :
    page.dirtier = none := by
  obtain ⟨_, _, hd⟩ := decode_of_onFile h
  unfold Page.decode at hd
  grind

/-- The transaction that a page is marked as changed by. -/
def mark? (e : Engine) (id : PageId) : Option TxnId := (e.copy? id).bind Page.dirtier

theorem Legal.rowIn? {e : Engine} {page : Page} (h : e.Legal page) {r : RecordId} (hr : page.id = r.page) :
    e.rowIn? r (some page.encode) = (page.tuple? r.slot).map Tuple.encode := by
  obtain ⟨table, ht, hschema⟩ := h.schema
  rw [hr] at ht
  unfold Engine.rowIn?
  rw [ht]
  show table.schema.rowAt? e.pageSize page.encode r.slot = _
  rw [hschema, ← h.size, h.exact.rowAt?_encode]

theorem rowIn?_congr {e e' : Engine} (hc : e'.catalog = e.catalog) (hs : e'.pageSize = e.pageSize) (r : RecordId)
    (image : Option Bytes) : e'.rowIn? r image = e.rowIn? r image := by
  unfold rowIn?
  rw [hc, hs]

theorem rowIn?_none (e : Engine) (r : RecordId) : e.rowIn? r none = none := by
  unfold rowIn?
  split <;> rfl

theorem Sound.row?_of_copy {e : Engine} (h : e.Sound) {id : PageId} {page : Page} (hc : e.copy? id = some page)
    {r : RecordId} (hr : r.page = id) : e.row? r = (page.tuple? r.slot).map Tuple.encode := by
  unfold row?
  rw [hr, view?_of_copy hc]
  exact (h.backed id page hc).toLegal.rowIn? ((h.sane.id_of_copy? hc).trans hr.symm)

theorem rowIn?_zeros (e : Engine) (r : RecordId) : e.rowIn? r (some (Bytes.zeros e.pageSize)) = none := by
  unfold rowIn?
  cases e.catalog.table? r.page.table with
  | error err => rfl
  | ok table =>
    show table.schema.rowAt? e.pageSize (Bytes.zeros e.pageSize) r.slot = none
    rw [← Page.encode_blank e.pageSize r.page table.schema]
    refine ((Page.exact_blank e.pageSize r.page table.schema).rowAt?_encode r.slot).trans ?_
    rw [Page.tuple?_blank]
    rfl

/-- The rows after a legal page took the place of a resident one. -/
theorem Sound.row?_setPage {e : Engine} (h : e.Sound) {id : PageId} {f : FrameId} {old page : Page}
    (hr : e.pool.resident.find? id = some f) (hf : e.page? f = some old) (hp : e.Legal page) (hid : page.id = id)
    (txn : TxnId) (r : RecordId) :
    (e.setPage f (page.markDirty (some txn))).row? r =
      if r.page = id then (page.tuple? r.slot).map Tuple.encode else e.row? r := by
  unfold row?
  rw [view?_setPage h.sane (page.markDirty (some txn)) hr hf r.page, Page.encode_markDirty, rowIn?_congr rfl rfl]
  split
  · rename_i hrp
    exact hp.rowIn? (hid.trans hrp.symm)
  · rfl

theorem Sound.row?_store {e : Engine} (h : e.Sound) {id : PageId} {f : FrameId} {page page' : Page} {t : Tuple}
    {r' : RecordId} (hr : e.pool.resident.find? id = some f) (hf : e.page? f = some page) (hfits : t.Fits)
    (hi : page.insert t = .ok (page', r')) (txn : TxnId) (r : RecordId) :
    (e.setPage f (page'.markDirty (some txn))).row? r = (if r' = r then some t.encode else e.row? r) ∧
      e.row? r' = none := by
  have hcopy := Pool.copy?_of_resident hr hf
  have hid := h.sane.id_of_copy? hcopy
  have hb := h.backed _ _ hcopy
  obtain ⟨_, hrp, hput, hlt, hfree, _⟩ := hb.exact.insert_eq_ok hi
  refine ⟨?_, ?_⟩
  · rw [h.row?_setPage hr hf (hb.toLegal.put hfits hi) ((Page.id_of_insert hi).1.trans hid), hput, Page.tuple?_put hlt]
    by_cases hp : r.page = id
    · rw [if_pos hp]
      by_cases hslot : r'.slot = r.slot
      · rw [if_pos hslot, if_pos (RecordId.eq_of_slot ((hrp.trans hid).trans hp.symm) hslot)]
        rfl
      · rw [if_neg hslot, if_neg fun he => hslot (congrArg RecordId.slot he), h.row?_of_copy hcopy hp]
    · rw [if_neg hp, if_neg fun he => hp (by rw [← he, hrp, hid])]
  · rw [h.row?_of_copy hcopy (hrp.trans hid), hfree]
    rfl

theorem Sound.row?_remove {e : Engine} (h : e.Sound) {id : PageId} {f : FrameId} {page page' : Page} {r' : RecordId}
    (hr : e.pool.resident.find? id = some f) (hf : e.page? f = some page)
    (hd : page.delete (some r') = .ok page') (txn : TxnId) (r : RecordId) :
    (e.setPage f (page'.markDirty (some txn))).row? r = if r' = r then none else e.row? r := by
  have hcopy := Pool.copy?_of_resident hr hf
  have hid := h.sane.id_of_copy? hcopy
  have hb := h.backed _ _ hcopy
  obtain ⟨hrp, hclear, hlt, _⟩ := hb.exact.delete_eq_ok hd
  rw [h.row?_setPage hr hf (hb.toLegal.clear hd) ((Page.id_of_delete hd).1.trans hid), hclear, Page.tuple?_clear hlt]
  by_cases hp : r.page = id
  · rw [if_pos hp]
    by_cases hslot : r'.slot = r.slot
    · rw [if_pos hslot, if_pos (RecordId.eq_of_slot ((hrp.trans hid).trans hp.symm) hslot)]
      rfl
    · rw [if_neg hslot, if_neg fun he => hslot (congrArg RecordId.slot he), h.row?_of_copy hcopy hp]
  · rw [if_neg hp, if_neg fun he => hp (by rw [← he, hrp, hid])]

/-- A page that is not on file has no rows. -/
theorem Sound.row?_of_no_image {e : Engine} (h : e.Sound) {r : RecordId} (hi : e.image? r.page = none) :
    e.row? r = none := by
  rw [row?, view?_of_absent (h.absent hi), hi, rowIn?_none]

/-- Where a zero page comes over a page that is not in memory there are no rows any more. -/
theorem OwnFiles.row?_append {e : Engine} (h : e.OwnFiles) {id : TableId} {table : Table}
    (ht : e.catalog.table? id = .ok table) (habsent : e.copy? ⟨id, e.disk.pageCount e.pageSize table⟩ = none)
    (r : RecordId) :
    row? { e with disk := (e.disk.appendPage e.pageSize table).1 } r =
      if r.page = ⟨id, e.disk.pageCount e.pageSize table⟩ then none else e.row? r := by
  have himage := h.image?_append ht r.page
  by_cases hr : r.page = ⟨id, e.disk.pageCount e.pageSize table⟩
  · rw [if_pos hr] at himage ⊢
    rw [← hr] at habsent
    rw [row?, view?_of_absent (e := { e with disk := (e.disk.appendPage e.pageSize table).1 }) habsent, himage]
    exact rowIn?_zeros e r
  · rw [if_neg hr] at himage ⊢
    unfold row? view?
    rw [himage]
    rfl

/-- A page that is appended has no rows, as the number that it gets had none before. -/
theorem Sound.rows_append {e : Engine} (h : e.Sound) {id : TableId} {table : Table}
    (ht : e.catalog.table? id = .ok table)
    (hl : (e.disk.contents table.file).length < PageFile.numbers * e.pageSize) (r : RecordId) :
    row? { e with disk := (e.disk.appendPage e.pageSize table).1 } r = e.row? r ∧
      saved? { e with disk := (e.disk.appendPage e.pageSize table).1 } r = e.saved? r := by
  obtain ⟨count, hcount, hnone, himage, _⟩ := h.append ht hl
  have hrow := h.toOwnFiles.row?_append ht (by rw [hcount]; exact h.absent hnone) r
  rw [hcount] at hrow
  refine ⟨hrow.trans ?_, ?_⟩
  · split
    · rename_i hnew
      rw [h.row?_of_no_image (by rw [hnew]; exact hnone)]
    · rfl
  · unfold saved?
    rw [himage]
    split
    · rename_i hnew
      rw [hnew, hnone, rowIn?_none]
      exact rowIn?_zeros e r
    · rfl

/-- What a step does to a row and its saved copy. A row is stored in a free slot only. -/
theorem Step.rows {e e' : Engine} {l : List Event} (hstep : Step e l e') (h : e.Sound)
    (hfair : ∀ event ∈ l, event.Fair) (hrange : ∀ page, .appended page ∈ l → e.InRange) (r : RecordId) :
    (e'.row? r, e'.saved? r) = l.foldl (Event.onRow r) (e.row? r, e.saved? r) ∧
      ∀ txn tuple, .stored txn r tuple ∈ l → e.row? r = none := by
  obtain ⟨hc, hs, _⟩ := hstep.fixed
  have hview := fun hq => hstep.view? h hfair hrange (q := r.page) hq
  have hrow : ∀ {v}, e'.view? r.page = v → e'.row? r = e.rowIn? r v := fun hv => by
    rw [row?, hv, rowIn?_congr hc hs]
  have hsaved : ∀ {v}, e'.image? r.page = v → e'.saved? r = e.rowIn? r v := fun hv => by
    rw [saved?, hv, rowIn?_congr hc hs]
  cases hstep with
  | call | countRead | log | force | touch | load | grant | base | complete | release =>
    refine ⟨Prod.ext (hrow (hview (by simp [Event.touched]))) rfl, by simp⟩
  | hand txn f => exact (hfair _ List.mem_cons_self).elim
  | @store txn id f page page' t r' hr hf hx hi =>
    obtain ⟨hstored, hfree⟩ := h.row?_store hr hf (hfair _ List.mem_cons_self) hi txn r
    refine ⟨?_, fun txn' tuple hm => by cases List.mem_singleton.mp hm; exact hfree⟩
    rw [hstored]
    show _ = if r' = r then (some t.encode, e.saved? r) else (e.row? r, e.saved? r)
    split <;> rfl
  | @remove txn id f page page' r' hr hf hx hd =>
    refine ⟨?_, by simp⟩
    rw [h.row?_remove hr hf hd txn r]
    show _ = if r' = r then (none, e.saved? r) else (e.row? r, e.saved? r)
    split <;> rfl
  | @append id table ht =>
    obtain ⟨hsame, hkept⟩ := h.rows_append ht (hrange _ List.mem_cons_self _ _ ht) r
    exact ⟨Prod.ext hsame hkept, by simp⟩
  | @write id f page txn table hr hf hd hl ht hi =>
    have hcopy := Pool.copy?_of_resident hr hf
    have himage := (h.write hr hf ht).1 r.page
    refine ⟨?_, by simp⟩
    show _ = if page.id = r.page then (e.row? r, e.row? r) else (e.row? r, e.saved? r)
    have hkeep := hrow (hview (by simp [Event.touched]))
    by_cases hp : page.id = r.page
    · rw [if_pos hp]
      rw [if_pos hp.symm] at himage
      refine Prod.ext hkeep ((hsaved himage).trans ?_)
      rw [row?, ← hp, h.sane.id_of_copy? hcopy, view?_of_copy hcopy]
    · rw [if_neg hp]
      rw [if_neg fun he => hp he.symm] at himage
      exact Prod.ext hkeep (hsaved himage)
  | @restore id f page fresh hr hf hp =>
    have hcopy := Pool.copy?_of_resident hr hf
    have hid := h.sane.id_of_copy? hcopy
    refine ⟨?_, by simp⟩
    show _ = if page.id = r.page then (e.saved? r, e.saved? r) else (e.row? r, e.saved? r)
    by_cases hq : page.id = r.page
    · rw [if_pos hq]
      refine Prod.ext ?_ rfl
      have hv := view?_setPage h.sane fresh hr hf r.page
      rw [if_pos (hq.symm.trans hid), ← (h.of_onFile hp).2.2, hq] at hv
      exact hrow hv
    · rw [if_neg hq]
      refine Prod.ext (hrow (hview ?_)) rfl
      simp only [List.mem_singleton, forall_eq, Event.touched, ne_eq, Option.some.injEq]
      exact hq
  | discard id =>
    refine ⟨?_, by simp⟩
    show _ = if id = r.page then (e.saved? r, e.saved? r) else (e.row? r, e.saved? r)
    by_cases hq : id = r.page
    · rw [if_pos hq]
      refine Prod.ext ?_ rfl
      have hgone : (e.discardPage id).copy? r.page = none := by
        refine (Pool.copy?_discard e.pool id r.page).trans ?_
        rw [if_pos hq.symm]
      exact hrow (view?_of_absent hgone)
    · rw [if_neg hq]
      refine Prod.ext (hrow (hview ?_)) rfl
      simp only [List.mem_singleton, forall_eq, Event.touched, ne_eq, Option.some.injEq]
      exact hq

theorem mark?_setPage {e : Engine} (hs : e.pool.Sane) {id : PageId} {f : FrameId} {old : Page} (page : Page)
    (hr : e.pool.resident.find? id = some f) (hf : e.page? f = some old) (p : PageId) :
    (e.setPage f page).mark? p = if old.id = p then page.dirtier else e.mark? p := by
  have hcopy : (e.setPage f page).copy? p = if p = id then some page else e.copy? p := hs.copy?_setPage hr hf page p
  unfold mark?
  rw [hcopy, hs.id_of_copy? (Pool.copy?_of_resident hr hf)]
  by_cases hp : p = id
  · rw [if_pos hp, if_pos hp.symm]
    rfl
  · rw [if_neg hp, if_neg fun he => hp he.symm]

/-- A load changes no mark: the page that it brings in and the one that it gives up are both unmarked. -/
theorem mark?_load {e : Engine} (hs : e.pool.Sane) {page : Page} {pool : Pool} {f : FrameId}
    (hn : e.pool.resident.find? page.id = none) (hp : e.onFile page.id = .ok page)
    (hl : e.pool.load page = .ok (pool, f)) (p : PageId) : mark? { e with pool := pool } p = e.mark? p := by
  show (pool.copy? p).bind Page.dirtier = (e.pool.copy? p).bind Page.dirtier
  cases hnew : pool.copy? p with
  | some copy =>
    rcases hs.copy?_load hl hnew with ⟨rfl, rfl⟩ | ⟨_, hold⟩
    · have hold : e.pool.copy? copy.id = none := by
        unfold Pool.copy?
        rw [hn]
        rfl
      rw [hold]
      exact clean_of_onFile hp
    · rw [hold]
  | none =>
    cases hold : e.pool.copy? p with
    | none => rfl
    | some copy => exact (clean_of_given_up hl hold hnew).symm

/-- What a step does to the mark of a page, unless a table has let a changed page out of the pool. -/
theorem Step.marks {e e' : Engine} {l : List Event} (hstep : Step e l e') (hs : e.pool.Sane)
    (hl : ∀ txn f, .handed txn f ∉ l) (p : PageId) : e'.mark? p = l.foldl (Event.onMark p) (e.mark? p) := by
  cases hstep with
  | call | countRead | log | force | touch | grant | complete | release | append => rfl
  | hand txn f => exact absurd List.mem_cons_self (hl txn f)
  | load hn hp hload => exact mark?_load hs hn hp hload p
  | store hr hf _ hi =>
    rw [mark?_setPage hs _ hr hf, ← (Page.id_of_insert hi).2]
    rfl
  | remove hr hf _ hd =>
    rw [mark?_setPage hs _ hr hf, ← (Page.id_of_delete hd).2]
    rfl
  | @base id f page hr hf =>
    refine (mark?_setPage hs _ hr hf p).trans ?_
    split
    · rename_i hp
      have hcopy := Pool.copy?_of_resident hr hf
      show page.dirtier = (e.pool.copy? p).bind Page.dirtier
      rw [← hp, hs.id_of_copy? hcopy, hcopy]
      rfl
    · rfl
  | write hr hf => exact mark?_setPage hs _ hr hf p
  | restore hr hf hp =>
    refine (mark?_setPage hs _ hr hf p).trans ?_
    rw [clean_of_onFile hp]
    rfl
  | discard id =>
    show ((e.discardPage id).copy? p).bind Page.dirtier = if id = p then none else e.mark? p
    rw [show (e.discardPage id).copy? p = _ from Pool.copy?_discard e.pool id p]
    by_cases hp : p = id
    · rw [if_pos hp, if_pos hp.symm]
      rfl
    · rw [if_neg hp, if_neg fun he => hp he.symm]
      rfl

/-- The mark of a page follows the history of a path. -/
theorem Path.marks {e e' : Engine} {l : List Event} (hpath : Path e l e') (hs : e.pool.Sane)
    (hl : ∀ txn f, .handed txn f ∉ l) (p : PageId) : e'.mark? p = l.foldl (Event.onMark p) (e.mark? p) := by
  induction hpath with
  | refl => rfl
  | step hstep _ ih =>
    rw [ih (hstep.sane hs) fun txn f hm => hl txn f (List.mem_append_right _ hm), List.foldl_append,
      hstep.marks hs fun txn f hm => hl txn f (List.mem_append_left _ hm)]

/-- A row and its saved copy follow the history of a path. -/
theorem Ranged.rows {e e' : Engine} {l : List Event} (hpath : Ranged e l e') (h : e.Sound)
    (hfair : ∀ event ∈ l, event.Fair) (r : RecordId) :
    (e'.row? r, e'.saved? r) = l.foldl (Event.onRow r) (e.row? r, e.saved? r) := by
  induction hpath with
  | refl => rfl
  | step hstep hrange _ ih =>
    obtain ⟨hfirst, hlater⟩ := List.forall_mem_append.mp hfair
    rw [ih (hstep.sound h hfirst hrange) hlater, List.foldl_append, (hstep.rows h hfirst hrange r).1]

theorem Ranged.marks {e e' : Engine} {l : List Event} (hpath : Ranged e l e') (h : e.Sound)
    (hfair : ∀ event ∈ l, event.Fair) (p : PageId) :
    e'.mark? p = l.foldl (Event.onMark p) (e.mark? p) :=
  hpath.path.marks h.sane (fun _ _ hm => hfair _ hm) p

end Engine

end RowStore
