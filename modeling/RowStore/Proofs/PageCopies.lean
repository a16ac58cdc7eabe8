import RowStore.Proofs.OpenChanges
import RowStore.Proofs.PageEntries

/-!
# Where copies come from

After a step the resident copy of a page is the one that was resident before, changed by an event of its own at most, or
what its file holds. If the rows on a table's file fit their columns, and the rows that are stored do, then all copies of
its pages are exact pages of the table, and so is everything that is read from its file, however the bytes around the
rows look. The number of pages of a table changes by an append to it only, and grows by one at most.
-/

namespace RowStore

namespace PageFile

theorem pageCount_append_le {size : Nat} (hs : 0 < size) (contents : SparseBytes) :
    pageCount size (append size contents) ≤ pageCount size contents + 1 ∧
      ((page? size (pageCount size contents) contents).isSome →
        pageCount size (append size contents) = pageCount size contents) := by
  have hbytes : (append size contents).toBytes =
      Bytes.overwrite (pageCount size contents * size) (Bytes.zeros size) contents.toBytes :=
    SparseBytes.toBytes_overwrite ..
  have hcount : pageCount size contents ≤ contents.length / size := Nat.mod_le ..
  have hwhole := Nat.div_mul_le_self contents.length size
  have hzeros : (Bytes.zeros size).length = size := Bytes.length_zeros size
  rw [isSome_page?]
  by_cases hover : pageCount size contents * size + size ≤ contents.length
  · -- The page is there already, and the file is as long as before.
    have hlength : (append size contents).length = contents.length := by
      rw [← SparseBytes.length_toBytes, hbytes, Bytes.length_overwrite _ _ _ (by
        rw [hzeros, SparseBytes.length_toBytes]; exact hover), SparseBytes.length_toBytes]
    have hsame : pageCount size (append size contents) = pageCount size contents := by
      unfold pageCount
      rw [hlength]
    exact ⟨by omega, fun _ => hsame⟩
  · -- The file ends with the new page, so that the quotient is one more than the count.
    have hstart : pageCount size contents * size ≤ contents.length :=
      Nat.le_trans (Nat.mul_le_mul_right size hcount) hwhole
    have hlength : (append size contents).length = (pageCount size contents + 1) * size := by
      rw [← SparseBytes.length_toBytes, hbytes, Bytes.overwrite_tail
        (by rw [SparseBytes.length_toBytes]; exact hstart)
        (by rw [hzeros, SparseBytes.length_toBytes]; omega), List.length_append, List.length_take,
        SparseBytes.length_toBytes, Nat.min_eq_left hstart, hzeros, Nat.succ_mul]
    refine ⟨?_, fun h => absurd h hover⟩
    calc pageCount size (append size contents) ≤ (append size contents).length / size := Nat.mod_le ..
      _ = pageCount size contents + 1 := by rw [hlength, Nat.mul_div_cancel _ hs]

theorem isSome_page?_of_lt_pageCount {size n : Nat} {contents : SparseBytes} (h : n < pageCount size contents) :
    (page? size n contents).isSome := by
  have hcount : pageCount size contents ≤ contents.length / size := Nat.mod_le ..
  rw [isSome_page?]
  calc n * size + size = (n + 1) * size := (Nat.succ_mul n size).symm
    _ ≤ contents.length / size * size := Nat.mul_le_mul_right size (by omega)
    _ ≤ contents.length := Nat.div_mul_le_self ..

end PageFile

/-- An event that lets no page out of the pool and stores no row in a table but one that fits. -/
def Event.Suits (id : TableId) : Event → Prop
  | .stored _ r t => r.page.table = id → t.Fits
  | .handed _ _ => False
  | _ => True

namespace Engine

variable {e e' : Engine} {l : List Event} {id : TableId} {q : PageId}

/-- What every step from a housed store preserves lasts through a path that lets no page out of the pool. -/
theorem Path.preserves_housed {I : Engine → Prop} {P : Event → Prop} (hP : ∀ txn f, ¬ P (.handed txn f))
    (hI : ∀ {e l e'}, Step e l e' → e.Housed → (∀ event ∈ l, P event) → I e → I e') (hpath : Path e l e')
    (h : e.Housed) (hl : ∀ event ∈ l, P event) (hi : I e) : I e' := by
  induction hpath with
  | refl => exact hi
  | step hstep _ ih =>
    obtain ⟨hfirst, hlater⟩ := List.forall_mem_append.mp hl
    exact ih (hstep.housed h fun txn f hm => hP txn f (hfirst _ hm)) hlater (hI hstep h hfirst hi)

/-- How a page comes to be the resident copy in a step with the given events. -/
inductive Copied (e : Engine) (l : List Event) (q : PageId) (new : Page) : Prop where
  | kept (hc : e.copy? q = some new)
  | loaded (hn : e.copy? q = none) (hp : e.onFile q = .ok new)
  | restored (hm : .restored q ∈ l) (hp : e.onFile q = .ok new)
  | based {old : Page} (hc : e.copy? q = some old) (he : new = old.setBeforeImage)
  | written {old : Page} (hm : .written q ∈ l) (hc : e.copy? q = some old) (he : new = old.markDirty none)
  | stored {old page : Page} {txn : TxnId} {r : RecordId} {t : Tuple} (hm : .stored txn r t ∈ l) (hr : r.page = q)
      (hc : e.copy? q = some old) (hi : old.insert t = .ok (page, r)) (he : new = page.markDirty (some txn))
  | removed {old page : Page} {txn : TxnId} {r : RecordId} (hm : .removed txn r ∈ l) (hr : r.page = q)
      (hc : e.copy? q = some old) (hd : old.delete (some r) = .ok page) (he : new = page.markDirty (some txn))

theorem Step.copied (hstep : Step e l e') (hs : e.pool.Sane) (hl : ∀ txn f, .handed txn f ∉ l) {new : Page}
    (hc : e'.copy? q = some new) : Copied e l q new := by
  have hset : ∀ {id : PageId} {f : FrameId} {old page : Page}, e.pool.resident.find? id = some f →
      e.page? f = some old → (e.pool.setPage f page).copy? q = some new →
      (old.id = q ∧ e.copy? q = some old ∧ new = page) ∨ e.copy? q = some new := by
    intro id f old page hr hf hcopy
    have hold := Pool.copy?_of_resident hr hf
    rw [hs.copy?_setPage hr hf] at hcopy
    split at hcopy
    · rename_i hq
      cases hcopy
      exact .inl ⟨(hs.id_of_copy? hold).trans hq.symm, hq ▸ hold, rfl⟩
    · exact .inr hcopy
  cases hstep with
  | call | countRead | log | force | touch | grant | append | complete | release => exact .kept hc
  | hand txn f => exact absurd List.mem_cons_self (hl txn f)
  | load hn hp hload =>
    rcases hs.copy?_load hload hc with ⟨rfl, rfl⟩ | ⟨_, hold⟩
    · refine .loaded ?_ hp
      show (e.pool.resident.find? _).bind e.pool.page? = none
      rw [hn]
      rfl
    · exact .kept hold
  | store hr hf _ hi =>
    rcases hset hr hf hc with ⟨hid, hold, he⟩ | hold
    · exact .stored List.mem_cons_self ((Page.id_of_insert hi).2.trans hid) hold hi he
    · exact .kept hold
  | remove hr hf _ hd =>
    rcases hset hr hf hc with ⟨hid, hold, he⟩ | hold
    · exact .removed List.mem_cons_self ((Page.id_of_delete hd).2.trans hid) hold hd he
    · exact .kept hold
  | base hr hf =>
    rcases hset hr hf hc with ⟨_, hold, he⟩ | hold
    · exact .based hold he
    · exact .kept hold
  | write hr hf =>
    rcases hset hr hf hc with ⟨hid, hold, he⟩ | hold
    · exact .written (by rw [hid]; exact List.mem_cons_self) hold he
    · exact .kept hold
  | restore hr hf hp =>
    rcases hset hr hf hc with ⟨hid, _, he⟩ | hold
    · subst he
      rw [hid] at hp
      exact .restored (by rw [hid]; exact List.mem_cons_self) hp
    · exact .kept hold
  | discard p =>
    change (e.pool.discard p).copy? q = some new at hc
    rw [Pool.copy?_discard] at hc
    split at hc
    · cases hc
    · exact .kept hc

theorem onFile_iff_of_image? (h : e.Layout) (h' : e'.Layout) (hc : e'.catalog = e.catalog)
    (hs : e'.pageSize = e.pageSize) (hi : e'.image? q = e.image? q) {page : Page} :
    e'.onFile q = .ok page ↔ e.onFile q = .ok page := by
  rw [onFile_eq h, onFile_eq h', hc, hs, hi]

/-- A step that neither writes a page nor appends it keeps what is read from its file. -/
theorem Step.onFile_iff (hstep : Step e l e') (h : e.Housed) (hw : .written q ∉ l) (ha : .appended q ∉ l) {page : Page} :
    e'.onFile q = .ok page ↔ e.onFile q = .ok page := by
  refine onFile_iff_of_image? h.toLayout (hstep.layout h.toLayout) hstep.fixed.1 hstep.fixed.2.1 ?_
  cases hstep with
  | @append id table ht =>
    rw [h.toOwnFiles.image?_append ht, if_neg]
    rintro rfl
    exact ha (by rw [h.keyed _ _ ht]; exact List.mem_cons_self)
  | @write id f page txn table hr hf hd hlog ht hi =>
    refine (h.image?_write hr hf ht q).trans (if_neg ?_)
    rintro rfl
    exact hw List.mem_cons_self
  | call | countRead | log | force | touch | load | grant | store | remove | base | restore | discard | hand
  | complete | release => rfl

/-- The image of an exact page of a table is read as that page in stored form. -/
theorem Legal.onFile {page : Page} (hp : e.Legal page) (h : e.Layout) (hi : e.image? page.id = some page.encode) :
    e.onFile page.id = .ok page.reread := by
  obtain ⟨table, ht, hschema⟩ := hp.schema
  have hread := hp.exact.decode_encode
  rw [hp.size, ← hschema] at hread
  exact (onFile_eq h page.id).mpr ⟨table, page.encode, ht, hi, hread⟩

theorem Legal.reread {page : Page} (h : e.Legal page) : e.Legal page.reread := ⟨h.exact.reread, h.size, h.schema⟩

/-- A page that is read from a file is an exact page of its table if its rows fit. -/
theorem legal_of_fits (h : e.Layout) {page : Page} (hp : e.onFile q = .ok page) (hf : ∀ t ∈ page.tuples, t.Fits) :
    e.Legal page := by
  obtain ⟨table, image, ht, _, hd⟩ := (onFile_eq h q).mp hp
  refine ⟨Page.exact_of_decode hd hf, Page.size_of_decode hd, table, ?_, (Page.shaped_of_decode hd).2.symm⟩
  rw [id_of_onFile hp]
  exact ht

/-- The pages of a table are exact pages of it, in memory and as they are read from its file. -/
structure Fitting (e : Engine) (id : TableId) : Prop where
  copies : ∀ q page, q.table = id → e.copy? q = some page → e.Legal page
  files : ∀ q page, q.table = id → e.onFile q = .ok page → e.Legal page

theorem Fitting.of_opened (h : e.Opened)
    (hf : ∀ q page, q.table = id → e.onFile q = .ok page → ∀ t ∈ page.tuples, t.Fits) : e.Fitting id where
  copies := fun q page _ hc => by rw [h.copy?] at hc; cases hc
  files := fun q page hq hp => legal_of_fits h.toLayout hp (hf q page hq hp)

/-- What is read from the file after a step that writes the page: the resident copy, in stored form. -/
theorem Step.onFile_of_written (hstep : Step e l e') (h : e.Housed) (hf : e.Fitting q.table) (hw : .written q ∈ l) :
    ∃ page, e.copy? q = some page ∧ e'.Legal page ∧ e'.onFile q = .ok page.reread := by
  obtain ⟨_, page, _, hcopy, _, himage, _⟩ := hstep.image?_of_written h hw
  have hid := h.sane.id_of_copy? hcopy
  have hlegal := (hf.copies q page rfl hcopy).congr hstep.fixed.1 hstep.fixed.2.1
  refine ⟨page, hcopy, hlegal, ?_⟩
  rw [← hid] at himage ⊢
  exact hlegal.onFile (hstep.layout h.toLayout) himage

/-- Pages stay exact when the rows that are stored fit. -/
theorem Step.fitting (hstep : Step e l e') (h : e.Housed) (hl : ∀ event ∈ l, event.Suits id) (hf : e.Fitting id) :
    e'.Fitting id := by
  obtain ⟨hcatalog, hsize, _⟩ := hstep.fixed
  refine ⟨fun q new hq hc => ?_, fun q new hq hp => ?_⟩
  · suffices hlegal : e.Legal new from hlegal.congr hcatalog hsize
    cases hstep.copied h.sane (fun _ _ hm => hl _ hm) hc with
    | kept hold => exact hf.copies q new hq hold
    | loaded _ hp => exact hf.files q new hq hp
    | restored _ hp => exact hf.files q new hq hp
    | based hold he =>
      obtain ⟨hexact, hsized, hschema⟩ := hf.copies q _ hq hold
      rw [he]
      exact ⟨hexact.setBeforeImage, hsized, hschema⟩
    | written _ hold he =>
      rw [he]
      exact (hf.copies q _ hq hold).markDirty none
    | stored hm hr hold hi he =>
      rw [he]
      exact ((hf.copies q _ hq hold).put (hl _ hm (by rw [hr, hq])) hi).markDirty _
    | removed _ _ hold hd he =>
      rw [he]
      exact ((hf.copies q _ hq hold).clear hd).markDirty _
  · by_cases hw : .written q ∈ l
    · subst hq
      obtain ⟨page, _, hlegal, hread⟩ := hstep.onFile_of_written h hf hw
      cases hp.symm.trans hread
      exact hlegal.reread
    · by_cases ha : .appended q ∈ l
      · -- The page is read from zeros.
        rcases hstep.image?_of_not_written h hw with hsame | hzero
        · refine (hf.files q new hq ?_).congr hcatalog hsize
          exact (onFile_iff_of_image? h.toLayout (hstep.layout h.toLayout) hcatalog hsize hsame).mp hp
        · obtain ⟨table, image, ht, himage, hd⟩ := (onFile_eq (hstep.layout h.toLayout) q).mp hp
          cases himage.symm.trans hzero
          rw [← hsize] at hd
          have hblank := (Page.exact_blank e'.pageSize q table.schema).decode_encode
          rw [Page.encode_blank] at hblank
          cases hd.symm.trans hblank
          exact ⟨(Page.exact_blank ..).reread, rfl, table, ht, rfl⟩
      · exact (hf.files q new hq ((hstep.onFile_iff h hw ha).mp hp)).congr hcatalog hsize

theorem Path.fitting (hpath : Path e l e') (h : e.Housed) (hl : ∀ event ∈ l, event.Suits id) (hf : e.Fitting id) :
    e'.Fitting id :=
  hpath.preserves_housed (fun _ _ hs => hs) Step.fitting h hl hf

variable {table : Table}

/-- The pages of a table below its count can be read. -/
theorem Housed.onFile_of_lt (h : e.Housed) (ht : e.catalog.table? q.table = .ok table)
    (hn : q.number < e.disk.pageCount e.pageSize table) : ∃ page, e.onFile q = .ok page := by
  refine h.exists_onFile ?_
  rw [image?_of_table ht]
  exact PageFile.isSome_page?_of_lt_pageCount hn

/-- Nothing but an append to the table changes the number of its pages. -/
theorem Step.pageCount_eq (hstep : Step e l e') (h : e.Housed) (ht : e.catalog.table? id = .ok table)
    (ha : ∀ page, .appended page ∈ l → page.table ≠ id) :
    e'.disk.pageCount e'.pageSize table = e.disk.pageCount e.pageSize table := by
  have hfile : ∀ (id' : TableId) (table' : Table) (c : SparseBytes), e.catalog.table? id' = .ok table' →
      (id' = id → c.length = (e.disk.contents table.file).length) →
      PageFile.pageCount e.pageSize ((e.disk.setContents table'.file c).contents table.file) =
        PageFile.pageCount e.pageSize (e.disk.contents table.file) := by
    intro id' table' c ht' hc
    rw [Disk.contents_setContents (h.placed _ _ ht')]
    split
    · rename_i hf
      unfold PageFile.pageCount
      rw [hc (h.apart _ _ _ _ ht' ht hf.symm)]
    · rfl
  cases hstep with
  | @append id' table' ht' =>
    refine hfile id' table' _ ht' fun hid => absurd ?_ (ha _ List.mem_cons_self)
    rw [← hid]
    exact h.keyed _ _ ht'
  | @write p f page txn table' hr hf hd hlog ht' hi =>
    have hcopy := Pool.copy?_of_resident hr hf
    have hid := h.sane.id_of_copy? hcopy
    obtain ⟨hsize, hon⟩ := h.copied hcopy
    rw [← hid, image?_of_table ht', PageFile.isSome_page?] at hon
    have hsame := hfile page.id.table table' (PageFile.write page.id.number page.encode (e.disk.contents table'.file)) ht'
      fun he => by
        subst he
        cases ht.symm.trans ht'
        exact PageFile.length_write (by rw [Page.length_encode, hsize]) hon
    refine Eq.trans ?_ hsame
    show PageFile.pageCount e.pageSize ((e.disk.writePage table' page).1.contents table.file) = _
    unfold Disk.writePage
    rw [if_neg (fun hne => hne hi)]
    rfl
  | call | countRead | log | force | touch | load | grant | store | remove | base | restore | discard | hand
  | complete | release => rfl

theorem Path.pageCount_eq (hpath : Path e l e') (h : e.Housed) (hl : ∀ txn f, .handed txn f ∉ l)
    (ht : e.catalog.table? id = .ok table) (ha : ∀ page, .appended page ∈ l → page.table ≠ id) :
    e'.disk.pageCount e'.pageSize table = e.disk.pageCount e.pageSize table := by
  induction hpath with
  | refl => rfl
  | step hstep _ ih =>
    refine (ih (hstep.housed h fun txn f hm => hl txn f (List.mem_append_left _ hm))
      (fun txn f hm => hl txn f (List.mem_append_right _ hm)) (by rw [hstep.fixed.1]; exact ht)
      fun page hm => ha page (List.mem_append_right _ hm)).trans ?_
    exact hstep.pageCount_eq h ht fun page hm => ha page (List.mem_append_left _ hm)

/-- A page that is among the pages of its table after a step was so before, unless it was just appended; and then it was
not in memory. -/
theorem Step.lt_pageCount (hstep : Step e l e') (h : e.Housed) (ht : e.catalog.table? q.table = .ok table)
    (hn : q.number < e'.disk.pageCount e'.pageSize table) :
    (.appended q ∈ l → e.copy? q = none) ∧ (.appended q ∉ l → q.number < e.disk.pageCount e.pageSize table) := by
  by_cases ha : ∃ page, .appended page ∈ l ∧ page.table = q.table
  · obtain ⟨p, hp, htable⟩ := ha
    cases hstep with
    | @append id table' ht' =>
      cases List.mem_singleton.mp hp
      have hid : id = q.table := (h.keyed _ _ ht').symm.trans htable
      subst hid
      cases ht.symm.trans ht'
      have hcontents := Disk.contents_setContents (h.placed _ _ ht)
        (PageFile.append e.pageSize (e.disk.contents table.file)) table.file
      rw [if_pos rfl] at hcontents
      have hcount : q.number < PageFile.pageCount e.pageSize
          (PageFile.append e.pageSize (e.disk.contents table.file)) := by
        rw [← hcontents]
        exact hn
      obtain ⟨hle, hsame⟩ := PageFile.pageCount_append_le h.pageSize_pos (e.disk.contents table.file)
      refine ⟨fun hm => ?_, fun hm => ?_⟩
      · -- A page that is appended behind the others had no image, and so no copy.
        have hnumber : q.number = PageFile.pageCount e.pageSize (e.disk.contents table.file) := by
          rw [List.mem_singleton.mp hm |> Event.appended.inj]
          rfl
        cases hcopy : e.copy? q with
        | none => rfl
        | some page =>
          have hon := h.on_file q page hcopy
          rw [image?_of_table ht, hnumber] at hon
          rw [hsame hon, ← hnumber] at hcount
          exact absurd hcount (Nat.lt_irrefl _)
      · refine Nat.lt_of_le_of_ne (Nat.le_of_lt_succ (Nat.lt_of_lt_of_le hcount hle)) fun he => hm ?_
        refine List.mem_singleton.mpr (congrArg Event.appended ?_)
        obtain ⟨qt, qn⟩ := q
        change table.id = qt at htable
        change qn = _ at he
        rw [he, ← htable]
    | call | countRead | log | force | touch | load => cases hp
    | grant | store | remove | base | write | restore | discard | hand | complete | release =>
      cases List.mem_singleton.mp hp
  · refine ⟨fun hm => absurd ⟨q, hm, rfl⟩ ha, fun _ => ?_⟩
    rw [hstep.pageCount_eq h ht fun page hm hid => ha ⟨page, hm, hid⟩] at hn
    exact hn

theorem Path.lt_pageCount (hpath : Path e l e') (h : e.Housed) (hl : ∀ txn f, .handed txn f ∉ l)
    (ht : e.catalog.table? q.table = .ok table) (ha : .appended q ∉ l)
    (hn : q.number < e'.disk.pageCount e'.pageSize table) : q.number < e.disk.pageCount e.pageSize table := by
  induction hpath with
  | refl => exact hn
  | step hstep _ ih =>
    have hm := ih (hstep.housed h fun txn f hm => hl txn f (List.mem_append_left _ hm))
      (fun txn f hm => hl txn f (List.mem_append_right _ hm)) (by rw [hstep.fixed.1]; exact ht)
      (fun hm => ha (List.mem_append_right _ hm)) hn
    exact (hstep.lt_pageCount h ht hm).2 fun hm => ha (List.mem_append_left _ hm)

end Engine

end RowStore
