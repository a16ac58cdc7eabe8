import RowStore.Proofs.PageNumbers

/-!
# What memory and files hold

In a sound state every file is a whole number of pages, every image on it is that of an exact page of its table, and
every resident page is exact, on file, and the same as on file unless it is marked as changed. A store over empty
files is sound, and every step keeps it so as long as the rows that are stored fit their columns, changed pages are
not let out of the pool, and files stay shorter than page numbers last.
-/

namespace RowStore

namespace Pool

theorem copy?_eq_some {p : Pool} {id : PageId} {page : Page} :
    p.copy? id = some page ↔ ∃ f, p.resident.find? id = some f ∧ p.page? f = some page := Option.bind_eq_some_iff

theorem Sane.id_of_copy? {p : Pool} (h : p.Sane) {id : PageId} {page : Page} (hc : p.copy? id = some page) :
    page.id = id := by
  obtain ⟨f, hr, hf⟩ := copy?_eq_some.mp hc
  obtain ⟨page', hf', hid⟩ := h.keyed id f hr
  cases hf.symm.trans hf'
  exact hid

theorem copy?_of_resident {p : Pool} {id : PageId} {f : FrameId} {page : Page} (hr : p.resident.find? id = some f)
    (hf : p.page? f = some page) : p.copy? id = some page := copy?_eq_some.mpr ⟨f, hr, hf⟩

theorem Sane.find?_of_page? {p : Pool} (h : p.Sane) {id : PageId} {f : FrameId} {page : Page}
    (hr : p.resident.find? id = some f) (hf : p.page? f = some page) : p.resident.find? page.id = some f := by
  rw [h.id_of_copy? (copy?_of_resident hr hf)]
  exact hr

theorem Sane.copy?_setPage {p : Pool} (h : p.Sane) {id : PageId} {f : FrameId} {old : Page}
    (hr : p.resident.find? id = some f) (hf : p.page? f = some old) (page : Page) (q : PageId) :
    (p.setPage f page).copy? q = if q = id then some page else p.copy? q := by
  show (p.resident.find? q).bind (p.setPage f page).page? = _
  by_cases hq : q = id
  · rw [if_pos hq, hq, hr, Option.bind_some, page?_setPage hf, if_pos rfl]
  · rw [if_neg hq]
    show _ = (p.resident.find? q).bind p.page?
    cases hg : p.resident.find? q with
    | none => rfl
    | some g =>
      have hfg : f ≠ g := by
        rintro rfl
        have hid := h.id_of_copy? (copy?_of_resident hr hf)
        exact hq ((h.id_of_copy? (copy?_of_resident hg hf)).symm.trans hid)
      rw [Option.bind_some, Option.bind_some, page?_setPage hf, if_neg hfg]

theorem Sane.copy?_load {p p' : Pool} (h : p.Sane) {page : Page} {f : FrameId} (hl : p.load page = .ok (p', f))
    {q : PageId} {copy : Page} (hc : p'.copy? q = some copy) :
    (q = page.id ∧ copy = page) ∨ (q ≠ page.id ∧ p.copy? q = some copy) := by
  obtain ⟨g, hr, hg⟩ := copy?_eq_some.mp hc
  by_cases hq : q = page.id
  · refine .inl ⟨hq, ?_⟩
    rw [hq, find?_load hl] at hr
    cases hr
    rw [page?_load hl, if_pos rfl] at hg
    exact (Option.some.inj hg).symm
  · have hold := find?_load_of_ne hl (fun he => hq he.symm) hr
    obtain ⟨old, hf, _⟩ := h.keyed q g hold
    have hgf : g ≠ f := by
      obtain ⟨_, _, rfl, _⟩ := load_eq_ok hl
      exact Nat.ne_of_lt (Array.getElem?_eq_some_iff.mp hf).1
    rw [page?_load hl, if_neg hgf] at hg
    exact .inr ⟨hq, copy?_of_resident hold hg⟩

theorem copy?_load_self {p p' : Pool} {page : Page} {f : FrameId} (hl : p.load page = .ok (p', f)) :
    p'.copy? page.id = some page :=
  copy?_of_resident (find?_load hl) (by rw [page?_load hl, if_pos rfl])

theorem copy?_discard (p : Pool) (id q : PageId) :
    (p.discard id).copy? q = if q = id then none else p.copy? q := by
  show ((p.resident.erase id).find? q).bind p.page? = _
  rw [Dict.find?_erase]
  by_cases hq : q = id
  · rw [if_pos hq, if_pos hq.symm]
    rfl
  · rw [if_neg hq, if_neg fun he => hq he.symm]
    rfl

end Pool

/-- Events of tables that keep their pages in the pool and store rows that fit. -/
def Event.Fair : Event → Prop
  | .stored _ _ tuple => tuple.Fits
  | .handed _ _ => False
  | _ => True

namespace Engine

/-- A page as the engine may hold it or have it on file. -/
structure Legal (e : Engine) (page : Page) : Prop where
  exact : page.Exact
  size : page.size = e.pageSize
  schema : ∃ table, e.catalog.table? page.id.table = .ok table ∧ table.schema = page.schema

/-- A page in memory with its image on file, which is its own unless the page was changed. -/
structure Backed (e : Engine) (id : PageId) (page : Page) : Prop extends Legal e page where
  on_file : (e.image? id).isSome
  clean : page.dirtier = none → e.image? id = some page.encode

structure Sound (e : Engine) : Prop extends Layout e where
  sane : e.pool.Sane
  whole : ∀ id table, e.catalog.table? id = .ok table →
    ∃ count, (e.disk.contents table.file).length = count * e.pageSize
  legible : ∀ id image, e.image? id = some image → ∃ page, e.Legal page ∧ page.id = id ∧ page.encode = image
  backed : ∀ id page, e.copy? id = some page → e.Backed id page

theorem Legal.congr {e e' : Engine} {page : Page} (h : e.Legal page) (hc : e'.catalog = e.catalog)
    (hs : e'.pageSize = e.pageSize) : e'.Legal page :=
  ⟨h.exact, by rw [hs]; exact h.size, by rw [hc]; exact h.schema⟩

theorem Legal.markDirty {e : Engine} {page : Page} (h : e.Legal page) (txn : Option TxnId) :
    e.Legal (page.markDirty txn) := ⟨h.exact.markDirty txn, h.size, h.schema⟩

theorem Legal.put {e : Engine} {page page' : Page} {t : Tuple} {r : RecordId} (h : e.Legal page) (hf : t.Fits)
    (hi : page.insert t = .ok (page', r)) : e.Legal page' := by
  obtain ⟨hschema, _, rfl, _⟩ := h.exact.insert_eq_ok hi
  exact ⟨h.exact.put hschema hf, h.size, h.schema⟩

theorem Legal.clear {e : Engine} {page page' : Page} {r : RecordId} (h : e.Legal page)
    (hd : page.delete (some r) = .ok page') : e.Legal page' := by
  obtain ⟨_, rfl, _⟩ := h.exact.delete_eq_ok hd
  exact ⟨h.exact.clear _, h.size, h.schema⟩

/-- Changes to memory alone keep a state sound if every copy is an old one or backed by the files. -/
theorem Sound.of_copies {e e' : Engine} (h : e.Sound) (hc : e'.catalog = e.catalog) (hs : e'.pageSize = e.pageSize)
    (hd : e'.disk.files = e.disk.files) (hsane : e'.pool.Sane)
    (hcopy : ∀ id page, e'.copy? id = some page → e.copy? id = some page ∨ e.Backed id page) : e'.Sound where
  toLayout := h.toLayout.congr hc hs (by rw [hd])
  sane := hsane
  whole := by
    intro id table ht
    rw [hc] at ht
    obtain ⟨count, hl⟩ := h.whole id table ht
    refine ⟨count, ?_⟩
    rw [hs, ← hl]
    unfold Disk.contents
    rw [hd]
  legible := by
    intro id image hi
    rw [image?_congr hc hs hd] at hi
    obtain ⟨page, hp, hid, henc⟩ := h.legible id image hi
    exact ⟨page, hp.congr hc hs, hid, henc⟩
  backed := by
    intro id page hp
    have hb : e.Backed id page := (hcopy id page hp).elim (h.backed id page) fun hb => hb
    refine ⟨hb.toLegal.congr hc hs, ?_, ?_⟩
    · rw [image?_congr hc hs hd]
      exact hb.on_file
    · rw [image?_congr hc hs hd]
      exact hb.clean

/-- A page that is read from the image of an exact page is exact, clean and the same as there. -/
theorem legal_of_onFile {e : Engine} (h : e.Layout) {id : PageId} {page : Page} (hp : e.onFile id = .ok page)
    (hlegible : ∀ image, e.image? id = some image → ∃ page, e.Legal page ∧ page.id = id ∧ page.encode = image) :
    e.Legal page ∧ page.dirtier = none ∧ e.image? id = some page.encode := by
  obtain ⟨table, image, ht, hi, hd⟩ := (onFile_eq h id).mp hp
  obtain ⟨old, hlegal, rfl, rfl⟩ := hlegible image hi
  obtain ⟨table', ht', hschema⟩ := hlegal.schema
  cases ht.symm.trans ht'
  have hread := hlegal.exact.decode_encode
  rw [hlegal.size, ← hschema, hd] at hread
  cases hread
  exact ⟨⟨hlegal.exact.reread, hlegal.size, table, ht, hschema⟩, rfl, by rw [hi, hlegal.exact.encode_reread]⟩

theorem Sound.of_onFile {e : Engine} (h : e.Sound) {id : PageId} {page : Page} (hp : e.onFile id = .ok page) :
    e.Backed id page ∧ page.dirtier = none ∧ e.image? id = some page.encode := by
  obtain ⟨hlegal, hclean, hi⟩ := legal_of_onFile h.toLayout hp (h.legible id)
  exact ⟨⟨hlegal, by rw [hi]; rfl, fun _ => hi⟩, hclean, hi⟩

/-- Replacing the resident copy of one page by a backed one keeps a state sound. -/
theorem Sound.setPage {e : Engine} (h : e.Sound) {id : PageId} {f : FrameId} {old page : Page}
    (hr : e.pool.resident.find? id = some f) (hf : e.page? f = some old) (hid : page.id = old.id)
    (hb : e.Backed id page) : (e.setPage f page).Sound := by
  refine h.of_copies rfl rfl rfl (h.sane.setPage hf hid) fun q copy hc => ?_
  change (e.pool.setPage f page).copy? q = some copy at hc
  rw [h.sane.copy?_setPage hr hf] at hc
  split at hc
  · rename_i hq
    cases hc
    exact .inr (hq ▸ hb)
  · exact .inl hc

theorem Sound.absent {e : Engine} (h : e.Sound) {id : PageId} (hi : e.image? id = none) : e.copy? id = none := by
  cases hcopy : e.copy? id with
  | none => rfl
  | some page =>
    have hon := (h.backed _ _ hcopy).on_file
    rw [hi] at hon
    cases hon

/-- A zero page may come to a page's place on file, even over a page that was there, if no copy of that page is in
memory. -/
theorem Sound.append_of_absent {e : Engine} (h : e.Sound) {id : TableId} {table : Table}
    (ht : e.catalog.table? id = .ok table) (habsent : e.copy? ⟨id, e.disk.pageCount e.pageSize table⟩ = none) :
    Sound { e with disk := (e.disk.appendPage e.pageSize table).1 } := by
  have himage := h.toOwnFiles.image?_append ht
  refine ⟨?_, h.sane, ?_, ?_, ?_⟩
  · exact h.toLayout.congr rfl rfl (List.length_set ..)
  · intro id' table' ht'
    have hcontents := Disk.contents_setContents (h.placed id table ht)
      (PageFile.append e.pageSize (e.disk.contents table.file)) table'.file
    by_cases hfile : table'.file = table.file
    · rw [if_pos hfile] at hcontents
      obtain ⟨count, hl⟩ := h.whole id table ht
      obtain ⟨count', hl'⟩ := PageFile.exists_length_append h.pageSize_pos hl
      exact ⟨count', (congrArg SparseBytes.length hcontents).trans hl'⟩
    · rw [if_neg hfile] at hcontents
      obtain ⟨count', hl'⟩ := h.whole id' table' ht'
      exact ⟨count', (congrArg SparseBytes.length hcontents).trans hl'⟩
  · intro q image hi
    rw [himage] at hi
    split at hi
    · rename_i hq
      cases hi
      refine ⟨Page.blank e.pageSize q table.schema, ⟨Page.exact_blank .., rfl, table, ?_, rfl⟩, rfl,
        Page.encode_blank ..⟩
      rw [hq]
      exact ht
    · obtain ⟨page, hp, hid, henc⟩ := h.legible q image hi
      exact ⟨page, hp.congr rfl rfl, hid, henc⟩
  · intro q page hp
    have hb := h.backed q page hp
    have hq : q ≠ ⟨id, e.disk.pageCount e.pageSize table⟩ := by
      rintro rfl
      cases habsent.symm.trans hp
    refine ⟨hb.toLegal.congr rfl rfl, ?_, ?_⟩
    · rw [himage, if_neg hq]
      exact hb.on_file
    · rw [himage, if_neg hq]
      exact hb.clean

theorem Sound.append {e : Engine} (h : e.Sound) {id : TableId} {table : Table} (ht : e.catalog.table? id = .ok table)
    (hr : (e.disk.contents table.file).length < PageFile.numbers * e.pageSize) :
    ∃ count, e.disk.pageCount e.pageSize table = count ∧ e.image? ⟨id, count⟩ = none ∧
      (∀ q, image? { e with disk := (e.disk.appendPage e.pageSize table).1 } q =
        if q = ⟨id, count⟩ then some (Bytes.zeros e.pageSize) else e.image? q) ∧
      Sound { e with disk := (e.disk.appendPage e.pageSize table).1 } := by
  obtain ⟨count, hl⟩ := h.whole id table ht
  have hpos := h.pageSize_pos
  have hcount : count < PageFile.numbers := by
    rw [hl] at hr
    exact Nat.lt_of_mul_lt_mul_right hr
  have hnumber : e.disk.pageCount e.pageSize table = count := PageFile.pageCount_eq hpos hl hcount
  have himage := h.toOwnFiles.image?_append ht
  rw [hnumber] at himage
  have hnone : e.image? ⟨id, count⟩ = none := by
    rw [@image?_of_table e ⟨id, count⟩ _ ht, ← Option.not_isSome_iff_eq_none, PageFile.isSome_page?_iff_lt hpos hl]
    exact Nat.lt_irrefl count
  refine ⟨count, hnumber, hnone, himage, h.append_of_absent ht (hnumber ▸ h.absent hnone)⟩

theorem Sound.write {e : Engine} (h : e.Sound) {id : PageId} {f : FrameId} {page : Page} {table : Table}
    (hr : e.pool.resident.find? id = some f) (hf : e.page? f = some page)
    (ht : e.catalog.table? page.id.table = .ok table) :
    (∀ q, image? { e with disk := (e.disk.writePage table page).1 } q =
      if q = page.id then some page.encode else e.image? q) ∧
    Sound (Engine.setPage { e with disk := (e.disk.writePage table page).1 } f (page.markDirty none)) := by
  have hcopy := Pool.copy?_of_resident hr hf
  have hid : page.id = id := h.sane.id_of_copy? hcopy
  subst hid
  have hb := h.backed _ _ hcopy
  have himage := h.toOwnFiles.image?_write ht hb.size hb.on_file
  have hlength : (PageFile.write page.id.number page.encode (e.disk.contents table.file)).length =
      (e.disk.contents table.file).length := by
    have hon := hb.on_file
    rw [image?_of_table ht, PageFile.isSome_page?] at hon
    exact PageFile.length_write (by rw [Page.length_encode, hb.size]) hon
  have hfiles : (e.disk.writePage table page).1.files =
      (e.disk.setContents table.file
        (PageFile.write page.id.number page.encode (e.disk.contents table.file))).files := by
    unfold Disk.writePage
    rw [if_neg (fun hne => hne (h.keyed _ _ ht).symm)]
    rfl
  refine ⟨himage, ?_, h.sane.setPage hf rfl, ?_, ?_, ?_⟩
  · refine h.toLayout.congr rfl rfl ?_
    show (e.disk.writePage table page).1.files.length = _
    rw [hfiles]
    exact List.length_set ..
  · intro id' table' ht'
    obtain ⟨count', hl'⟩ := h.whole id' table' ht'
    refine ⟨count', ?_⟩
    show ((e.disk.writePage table page).1.files.getD table'.file .empty).length = _
    rw [hfiles]
    have hcontents := Disk.contents_setContents (h.placed _ table ht)
      (PageFile.write page.id.number page.encode (e.disk.contents table.file)) table'.file
    refine (congrArg SparseBytes.length hcontents).trans ?_
    split
    · rename_i hfile
      rw [hlength, ← hfile]
      exact hl'
    · exact hl'
  · intro q image hi
    change image? { e with disk := (e.disk.writePage table page).1 } q = some image at hi
    rw [himage] at hi
    split at hi
    · rename_i hq
      cases hi
      exact ⟨page, hb.toLegal.congr rfl rfl, hq.symm, rfl⟩
    · obtain ⟨old, hp, hid, henc⟩ := h.legible q image hi
      exact ⟨old, hp.congr rfl rfl, hid, henc⟩
  · intro q copy hc
    change (e.pool.setPage f (page.markDirty none)).copy? q = some copy at hc
    rw [h.sane.copy?_setPage hr hf] at hc
    split at hc
    · rename_i hq
      cases hc
      have hnew := (himage q).trans (if_pos hq)
      exact ⟨(hb.toLegal.markDirty none).congr rfl rfl, Option.isSome_iff_exists.mpr ⟨_, hnew⟩, fun _ => hnew⟩
    · rename_i hq
      have hold := (himage q).trans (if_neg hq)
      have hbq := h.backed q copy hc
      refine ⟨hbq.toLegal.congr rfl rfl, ?_, fun hd => hold.trans (hbq.clean hd)⟩
      exact (congrArg Option.isSome hold).trans hbq.on_file

/-- A step keeps a state sound, if there is a number for the page that it appends. -/
theorem Step.sound {e e' : Engine} {l : List Event} (hstep : Step e l e') (h : e.Sound)
    (hfair : ∀ event ∈ l, event.Fair) (hrange : ∀ page, .appended page ∈ l → e.InRange) : e'.Sound := by
  have hsane := hstep.sane h.sane
  cases hstep with
  | call | countRead | log | force | grant | complete | release =>
    exact h.of_copies rfl rfl rfl hsane fun id page hc => .inl hc
  | touch => exact h.of_copies rfl rfl rfl hsane fun id page hc => .inl hc
  | load hn hp hl =>
    refine h.of_copies rfl rfl rfl hsane fun id page hc => ?_
    rcases h.sane.copy?_load hl hc with ⟨rfl, rfl⟩ | ⟨_, hold⟩
    · exact .inr (h.of_onFile hp).1
    · exact .inl hold
  | discard id =>
    refine h.of_copies rfl rfl rfl hsane fun q page hc => ?_
    change (e.pool.discard id).copy? q = some page at hc
    rw [Pool.copy?_discard] at hc
    split at hc
    · cases hc
    · exact .inl hc
  | store hr hf hx hi =>
    have hb := h.backed _ _ (Pool.copy?_of_resident hr hf)
    have hfits := hfair _ List.mem_cons_self
    exact h.setPage hr hf (Page.id_of_insert hi).1
      ⟨(hb.toLegal.put hfits hi).markDirty _, hb.on_file, by rintro ⟨⟩⟩
  | remove hr hf hx hd =>
    have hb := h.backed _ _ (Pool.copy?_of_resident hr hf)
    exact h.setPage hr hf (Page.id_of_delete hd).1 ⟨(hb.toLegal.clear hd).markDirty _, hb.on_file, by rintro ⟨⟩⟩
  | base hr hf =>
    have hb := h.backed _ _ (Pool.copy?_of_resident hr hf)
    exact h.setPage hr hf rfl ⟨⟨hb.exact.setBeforeImage, hb.size, hb.schema⟩, hb.on_file, hb.clean⟩
  | restore hr hf hp =>
    have hid := h.sane.id_of_copy? (Pool.copy?_of_resident hr hf)
    refine h.setPage hr hf (id_of_onFile hp) ?_
    rw [← hid]
    exact (h.of_onFile hp).1
  | append ht =>
    obtain ⟨_, _, _, _, hs⟩ := h.append ht (hrange _ List.mem_cons_self _ _ ht)
    exact hs
  | write hr hf hd hl ht hi => exact (h.write hr hf ht).2
  | hand txn f => exact (hfair _ List.mem_cons_self).elim

/-- Sound states stay sound along a path of fair events with numbers for all pages. -/
theorem Ranged.sound {e e' : Engine} {l : List Event} (hpath : Ranged e l e') (h : e.Sound)
    (hfair : ∀ event ∈ l, event.Fair) : e'.Sound := by
  induction hpath with
  | refl => exact h
  | step hstep hrange _ ih =>
    obtain ⟨hfirst, hlater⟩ := List.forall_mem_append.mp hfair
    exact ih (hstep.sound h hfirst hrange) hlater

end Engine

end RowStore
