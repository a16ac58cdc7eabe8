import RowStore.Proofs.FilePages
import RowStore.Proofs.PageSlots
import RowStore.Proofs.PoolShape

/-!
# Tables on files of their own

In an orderly layout every table is filed under its id and lies in a file that no other table lies in, so that the image
of a page is what its table's file holds at its place. Appending adds a zero image behind the last page of one table
and writing replaces the image of one page; neither touches the image of any other page.
-/

namespace RowStore

namespace Disk

theorem contents_setContents {d : Disk} {file : Nat} (h : file < d.files.length) (c : SparseBytes) (other : Nat) :
    (d.setContents file c).contents other = if other = file then c else d.contents other := by
  show (d.files.set file c).getD other SparseBytes.empty = if other = file then c else d.files.getD other .empty
  rw [List.getD_eq_getElem?_getD, List.getElem?_set, List.getD_eq_getElem?_getD]
  by_cases he : other = file
  · rw [if_pos he, if_pos he.symm, if_pos h]
    rfl
  · rw [if_neg he, if_neg fun hc => he hc.symm]

end Disk

namespace Engine

/-- The image of a page in its table's file. -/
def image? (e : Engine) (id : PageId) : Option Bytes :=
  match e.catalog.table? id.table with
  | .error _ => none
  | .ok table => PageFile.page? e.pageSize id.number (e.disk.contents table.file)

def copy? (e : Engine) (id : PageId) : Option Page := e.pool.copy? id

/-- Every table is filed under its id and lies in a file of its own. -/
structure OwnFiles (e : Engine) : Prop where
  pageSize_pos : 0 < e.pageSize
  keyed : ∀ id table, e.catalog.table? id = .ok table → table.id = id
  placed : ∀ id table, e.catalog.table? id = .ok table → table.file < e.disk.files.length
  apart : ∀ id id' table table', e.catalog.table? id = .ok table → e.catalog.table? id' = .ok table' →
    table.file = table'.file → id = id'

/-- Every table hands its pages back at once. -/
structure Layout (e : Engine) : Prop extends OwnFiles e where
  plain : ∀ id table, e.catalog.table? id = .ok table → table.followUps = []

theorem image?_of_table {e : Engine} {id : PageId} {table : Table} (ht : e.catalog.table? id.table = .ok table) :
    e.image? id = PageFile.page? e.pageSize id.number (e.disk.contents table.file) := by
  unfold image?
  rw [ht]

theorem image?_congr {e e' : Engine} (hc : e'.catalog = e.catalog) (hs : e'.pageSize = e.pageSize)
    (hd : e'.disk.files = e.disk.files) (id : PageId) : e'.image? id = e.image? id := by
  unfold image? Disk.contents
  rw [hc, hs, hd]

theorem onFile_eq {e : Engine} (he : e.Layout) (id : PageId) {page : Page} :
    e.onFile id = .ok page ↔ ∃ table image, e.catalog.table? id.table = .ok table ∧ e.image? id = some image ∧
      Page.decode e.pageSize id table.schema image = .ok page := by
  unfold onFile image? Disk.readPage
  cases ht : e.catalog.table? id.table with
  | error err => simp
  | ok table =>
    have hid := he.keyed _ _ ht
    simp only [hid, ne_eq, not_true_eq_false, if_false]
    cases PageFile.page? e.pageSize id.number (e.disk.contents table.file) with
    | none => simp
    | some image => simp

namespace OwnFiles

variable {e : Engine} {table : Table}

theorem image?_setContents (he : e.OwnFiles) {id : TableId} (ht : e.catalog.table? id = .ok table) (c : SparseBytes)
    (traffic : Dict TableId Traffic) (q : PageId) :
    image? { e with disk := ⟨(e.disk.setContents table.file c).files, traffic⟩ } q =
      if q.table = id then PageFile.page? e.pageSize q.number c else e.image? q := by
  unfold image?
  cases hq : e.catalog.table? q.table with
  | error err =>
    have hne : q.table ≠ id := by
      rintro rfl
      rw [ht] at hq
      cases hq
    simp only [hne, if_false]
  | ok other =>
    have hcontents := Disk.contents_setContents (he.placed _ _ ht) c other.file
    change Disk.contents ⟨(e.disk.setContents table.file c).files, traffic⟩ other.file = _ at hcontents
    simp only
    rw [hcontents]
    by_cases hid : q.table = id
    · subst hid
      cases ht.symm.trans hq
      rw [if_pos rfl, if_pos rfl]
    · rw [if_neg hid, if_neg fun hf => hid (he.apart _ _ _ _ hq ht hf)]

theorem image?_append (he : e.OwnFiles) {id : TableId} (ht : e.catalog.table? id = .ok table) (q : PageId) :
    image? { e with disk := (e.disk.appendPage e.pageSize table).1 } q =
      if q = ⟨id, e.disk.pageCount e.pageSize table⟩ then some (Bytes.zeros e.pageSize) else e.image? q := by
  refine (he.image?_setContents ht _ _ q).trans ?_
  rw [PageFile.page?_append he.pageSize_pos]
  change (if q.table = id then if q.number = e.disk.pageCount e.pageSize table then _ else _ else _) = _
  obtain ⟨qt, qn⟩ := q
  by_cases hid : qt = id
  · subst hid
    rw [if_pos rfl, @image?_of_table e ⟨qt, qn⟩ _ ht]
    by_cases hn : qn = e.disk.pageCount e.pageSize table
    · rw [if_pos hn, if_pos (by rw [hn])]
    · rw [if_neg hn, if_neg fun h => hn (PageId.mk.inj h).2]
  · rw [if_neg hid, if_neg fun h => hid (PageId.mk.inj h).1]

theorem image?_writePage (he : e.OwnFiles) {page : Page} (ht : e.catalog.table? page.id.table = .ok table)
    (q : PageId) :
    image? { e with disk := (e.disk.writePage table page).1 } q =
      if q.table = page.id.table then
        PageFile.page? e.pageSize q.number (PageFile.write page.id.number page.encode (e.disk.contents table.file))
      else e.image? q := by
  have hw : (e.disk.writePage table page).1 =
      (e.disk.setContents table.file
        (PageFile.write page.id.number page.encode (e.disk.contents table.file))).countWrite table.id := by
    unfold Disk.writePage
    rw [if_neg (fun hne => hne (he.keyed _ _ ht).symm)]
  rw [hw]
  exact he.image?_setContents ht _ _ q

theorem image?_write_self (he : e.OwnFiles) {page : Page} (ht : e.catalog.table? page.id.table = .ok table)
    (hs : page.size = e.pageSize) :
    image? { e with disk := (e.disk.writePage table page).1 } page.id = some page.encode := by
  rw [he.image?_writePage ht, if_pos rfl, PageFile.page?_write_self he.pageSize_pos (by rw [Page.length_encode, hs])]

/-- Writing a page leaves the images of other pages. Only when the page itself has not been on file before may pages
without an image get one. -/
theorem image?_write_of_ne (he : e.OwnFiles) {page : Page} (ht : e.catalog.table? page.id.table = .ok table)
    (hs : page.size = e.pageSize) {q : PageId} (hne : q ≠ page.id)
    (hi : (e.image? page.id).isSome ∨ (e.image? q).isSome) :
    image? { e with disk := (e.disk.writePage table page).1 } q = e.image? q := by
  have hlength : page.encode.length = e.pageSize := by rw [Page.length_encode, hs]
  rw [he.image?_writePage ht]
  split
  · rename_i htable
    have hnumber : q.number ≠ page.id.number := fun hn => hne (by rw [PageId.mk.injEq]; exact ⟨htable, hn⟩)
    have htq : e.catalog.table? q.table = .ok table := by rw [htable, ht]
    rw [image?_of_table htq]
    rcases hi with hpage | hq
    · rw [image?_of_table ht, PageFile.isSome_page?] at hpage
      rw [PageFile.page?_write hlength hpage, if_neg hnumber]
    · rw [image?_of_table htq] at hq
      exact PageFile.page?_write_of_ne hlength hnumber hq
  · rfl

theorem image?_write (he : e.OwnFiles) {page : Page} (ht : e.catalog.table? page.id.table = .ok table)
    (hs : page.size = e.pageSize) (hi : (e.image? page.id).isSome) (q : PageId) :
    image? { e with disk := (e.disk.writePage table page).1 } q =
      if q = page.id then some page.encode else e.image? q := by
  split
  · rename_i hq
    rw [hq, he.image?_write_self ht hs]
  · rename_i hne
    exact he.image?_write_of_ne ht hs hne (.inl hi)

theorem congr {e' : Engine} (he : e.OwnFiles) (hc : e'.catalog = e.catalog) (hs : e'.pageSize = e.pageSize)
    (hf : e'.disk.files.length = e.disk.files.length) : e'.OwnFiles where
  pageSize_pos := by rw [hs]; exact he.pageSize_pos
  keyed := by rw [hc]; exact he.keyed
  placed := by rw [hc, hf]; exact he.placed
  apart := by rw [hc]; exact he.apart

end OwnFiles

theorem Layout.congr {e e' : Engine} (he : e.Layout) (hc : e'.catalog = e.catalog) (hs : e'.pageSize = e.pageSize)
    (hf : e'.disk.files.length = e.disk.files.length) : e'.Layout where
  toOwnFiles := he.toOwnFiles.congr hc hs hf
  plain := by rw [hc]; exact he.plain

theorem Step.fixed {e e' : Engine} {l : List Event} (h : Step e l e') :
    e'.catalog = e.catalog ∧ e'.pageSize = e.pageSize ∧ e'.disk.files.length = e.disk.files.length := by
  cases h with
  | append => exact ⟨rfl, rfl, List.length_set ..⟩
  | @write _ _ page _ table =>
    refine ⟨rfl, rfl, ?_⟩
    show (e.disk.writePage table page).1.files.length = _
    unfold Disk.writePage
    split
    · rfl
    · exact List.length_set ..
  | call | countRead | log | force | touch | load | grant | store | remove | base | restore | discard | hand
  | complete | release => exact ⟨rfl, rfl, rfl⟩

theorem Path.fixed {e e' : Engine} {l : List Event} (h : Path e l e') :
    e'.catalog = e.catalog ∧ e'.pageSize = e.pageSize ∧ e'.disk.files.length = e.disk.files.length := by
  induction h with
  | refl => exact ⟨rfl, rfl, rfl⟩
  | step hs _ ih =>
    obtain ⟨hc, hp, hf⟩ := hs.fixed
    exact ⟨ih.1.trans hc, ih.2.1.trans hp, ih.2.2.trans hf⟩

theorem Step.layout {e e' : Engine} {l : List Event} (h : Step e l e') (he : e.Layout) : e'.Layout :=
  he.congr h.fixed.1 h.fixed.2.1 h.fixed.2.2

theorem Path.layout {e e' : Engine} {l : List Event} (h : Path e l e') (he : e.Layout) : e'.Layout :=
  h.preserves (fun _ _ _ => Step.layout) he

end Engine

end RowStore
