import RowStore.Proofs.ChangeResults
import RowStore.Proofs.CommitOutcomes
import RowStore.Proofs.InsertTargets
import RowStore.Proofs.PageCopies
import RowStore.Proofs.TableScans

/-!
# What an insert leaves of a page that it appends

A page is appended in the middle of an insert, before it is known whether its lock and a place in memory can be had, so
an insert that fails may have made its table longer by a zero page. It has then found every page before it full. The page
stays empty until a row is stored on it, and the next insert gets no further than to it. So however many inserts
fail one after the other, in whichever way and with whatever else in between, the file grows by one page at most, unless
rows are so wide that there is not one slot on a page.
-/

namespace RowStore

namespace PageFile

variable {size : Nat} {contents : SparseBytes}

theorem page?_pageCount (hs : 0 < size) (h : contents.length < numbers * size) :
    page? size (pageCount size contents) contents = none := by
  have hcount : pageCount size contents = contents.length / size :=
    Nat.mod_eq_of_lt ((Nat.div_lt_iff_lt_mul hs).mpr h)
  rw [← Option.not_isSome_iff_eq_none, isSome_page?, hcount]
  exact Nat.not_le.mpr (Nat.lt_div_mul_add hs)

theorem pageCount_append (hs : 0 < size) (h : (append size contents).length < numbers * size) :
    pageCount size (append size contents) = pageCount size contents + 1 := by
  refine Nat.le_antisymm (pageCount_append_le hs contents).1 ?_
  have hthere : (page? size (pageCount size contents) (append size contents)).isSome := by
    rw [page?_append hs, if_pos rfl]
    rfl
  rw [isSome_page?, ← Nat.succ_mul] at hthere
  calc pageCount size contents + 1 ≤ (append size contents).length / size := (Nat.le_div_iff_mul_le hs).mpr hthere
    _ = pageCount size (append size contents) := (Nat.mod_eq_of_lt ((Nat.div_lt_iff_lt_mul hs).mpr h)).symm

/-- When the page numbers have all been given out the count stays as it is. -/
theorem pageCount_append_of_used (hs : 0 < size) (h : numbers * size ≤ contents.length) :
    pageCount size (append size contents) = pageCount size contents := by
  refine (pageCount_append_le hs contents).2 (isSome_page?.mpr ?_)
  have hcount : pageCount size contents < numbers := Nat.mod_lt _ (by decide)
  calc pageCount size contents * size + size = (pageCount size contents + 1) * size := (Nat.succ_mul ..).symm
    _ ≤ numbers * size := Nat.mul_le_mul_right size hcount
    _ ≤ contents.length := h

end PageFile

namespace Engine

variable {e e' m : Engine} {l : List Event} {txn : TxnId} {id : TableId} {table : Table} {q : PageId} {t : Tuple}

/-- Between two states a transaction, which had done nothing but lock pages, had a page to itself on which no slot was
free. -/
def FoundFull (e e' : Engine) (txn : TxnId) (q : PageId) : Prop :=
  ∃ l m l' page, Path e l m ∧ (∀ event ∈ l, ∃ p mode, event = .granted txn p mode) ∧ Path m l' e' ∧
    m.copy? q = some page ∧ page.freeSlots = 0 ∧ m.locks.modeOf? txn q = some .exclusive

theorem FoundFull.before (h : FoundFull m e' txn q) (hpath : Path e l m)
    (hl : ∀ event ∈ l, ∃ p mode, event = .granted txn p mode) : FoundFull e e' txn q := by
  obtain ⟨l₁, m₁, l₂, page, hfirst, hl₁, hlater, hfull⟩ := h
  exact ⟨l ++ l₁, m₁, l₂, page, hpath.trans hfirst, List.forall_mem_append.mpr ⟨hl, hl₁⟩, hlater, hfull⟩

theorem FoundFull.after (h : FoundFull e m txn q) (hpath : Path m l e') : FoundFull e e' txn q := by
  obtain ⟨l₁, m₁, l₂, page, hfirst, hl₁, hlater, hfull⟩ := h
  exact ⟨l₁, m₁, l₂ ++ l, page, hfirst, hl₁, hlater.trans hpath, hfull⟩

/-- A walk that comes to its end without having stored the row has found every page full. -/
theorem foundFull_of_walk {left n : Nat} (hs : e.pool.Sane)
    (h : insertAmong txn id t left n e = (e', .ok none)) {k : Nat} (hle : n ≤ k) (hlt : k < n + left) :
    FoundFull e e' txn ⟨id, k⟩ := by
  induction left generalizing n e with
  | zero => omega
  | succ left ih =>
    have hpath := path_getPage e txn ⟨id, n⟩ .readWrite
    have hgranted : ∀ event ∈ e.getEvents txn ⟨id, n⟩ .readWrite, ∃ p mode, event = .granted txn p mode :=
      forall_getEvents ⟨_, _, rfl⟩
    unfold insertAmong at h
    cases hget : e.getPage txn ⟨id, n⟩ .readWrite with
    | mk e₁ result =>
      rw [hget] at h hpath
      cases result with
      | error err => cases h
      | ok f =>
        obtain ⟨_, _, hresident⟩ := getPage_ok hget
        obtain ⟨page, hpage, _⟩ := (hpath.sane hs).keyed _ _ hresident
        simp only [show e₁.page? f = some page from hpage] at h
        split at h
        · generalize e₁.storeIn txn f page t = stored at h
          obtain ⟨e₂, stored⟩ := stored
          cases stored <;> cases h
        · rename_i hroom
          rcases Nat.eq_or_lt_of_le hle with rfl | hgt
          · have hrest := path_insertAmong txn id t left (n + 1) e₁
            rw [h] at hrest
            exact ⟨_, e₁, _, page, hpath, hgranted, hrest, Pool.copy?_of_resident hresident hpage,
              Nat.eq_zero_of_not_pos hroom, exclusive_of_getPage hget⟩
          · exact (ih (hpath.sane hs) h hgt (by omega)).before hpath hgranted

/-- Storing a row at the end of a table fails before a page is appended, or it appends one and goes on from there. -/
theorem insertAtEnd_cases (ht : e.catalog.table? id = .ok table) (txn : TxnId) (t : Tuple) :
    (e.insertAtEndEvents txn table t = [] ∧ (e.insertAtEnd txn table t).1.disk.files = e.disk.files) ∨
      ∃ e' l, e.insertAtEndEvents txn table t = .appended ⟨table.id, e.disk.pageCount e.pageSize table⟩ :: l ∧
        Path e [.appended ⟨table.id, e.disk.pageCount e.pageSize table⟩] e' ∧ e'.pool = e.pool ∧
        Path e' l (e.insertAtEnd txn table t).1 ∧
        (e.insertAtEnd txn table t).1.disk.files =
          (e.disk.setContents table.file (PageFile.append e.pageSize (e.disk.contents table.file))).files := by
  have happend := path_appendPage ht
  rw [insertAtEnd_eq]
  unfold insertAtEndEvents
  unfold appendPage Engine.call at happend ⊢
  generalize e.faults.fails .append e.faults.next = failed at happend ⊢
  cases failed with
  | true => exact .inl ⟨rfl, rfl⟩
  | false =>
    obtain ⟨_, hpath⟩ := happend
    refine .inr ⟨_, _, rfl, hpath, rfl, path_storeAt _ _ _ _, ?_⟩
    exact (path_storeAt _ txn _ t).files_eq
      (fun p hm => forall_storeAtEvents (P := (· ≠ .appended p)) nofun (fun _ => nofun) _ hm rfl)
      (fun p hm => forall_storeAtEvents (P := (· ≠ .written p)) nofun (fun _ => nofun) _ hm rfl)

/-- An insert that appends a page walks all pages of the table without finding room, appends a page and goes on from
there, with no event but those given. -/
structure Appends (e : Engine) (txn : TxnId) (table : Table) (t : Tuple) (events : List Event) (e₁ e₂ : Engine)
    (l : List Event) (e' : Engine) : Prop where
  schema : t.schema = table.schema
  walked : insertAmong txn table.id t (e.disk.pageCount e.pageSize table) 0 e = (e₁, .ok none)
  append : Path e₁ [.appended ⟨table.id, e.disk.pageCount e.pageSize table⟩] e₂
  pool : e₂.pool = e₁.pool
  rest : Path e₂ l e'
  among : ∀ event ∈ l, event ∈ events
  files : e'.disk.files =
    (e.disk.setContents table.file (PageFile.append e.pageSize (e.disk.contents table.file))).files

theorem insertInto_cases (ht : e.catalog.table? id = .ok table) (txn : TxnId) (t : Tuple) :
    ((∀ p, .appended p ∉ e.insertIntoEvents txn table t) ∧ (e.insertInto txn table t).1.disk.files = e.disk.files) ∨
      ∃ e₁ e₂ l, Appends e txn table t (e.insertIntoEvents txn table t) e₁ e₂ l (e.insertInto txn table t).1 := by
  obtain ⟨hwalk, hsame⟩ := ranged_insertAmong txn table.id t (e.disk.pageCount e.pageSize table) 0 e
  have hnone : ∀ p, .appended p ∉ insertAmongEvents txn table.id t (e.disk.pageCount e.pageSize table) 0 e :=
    fun p hm => forall_insertAmongEvents (P := (· ≠ .appended p)) (fun _ _ => nofun) (fun _ => nofun) _ _ e _ hm rfl
  unfold insertInto insertIntoEvents
  by_cases hschema : t.schema ≠ table.schema
  · rw [if_pos hschema, if_pos hschema]
    exact .inl ⟨fun _ => List.not_mem_nil, rfl⟩
  · rw [if_neg hschema, if_neg hschema]
    generalize insertAmongEvents txn table.id t (e.disk.pageCount e.pageSize table) 0 e = events at hwalk hnone ⊢
    cases hamong : insertAmong txn table.id t (e.disk.pageCount e.pageSize table) 0 e with
    | mk e₁ answer =>
      rw [hamong] at hwalk hsame
      obtain ⟨hcatalog, hsize, _⟩ := hwalk.path.fixed
      have hdisk : e₁.disk.files = e.disk.files ∧ e₁.pageSize = e.pageSize := ⟨hsame, hsize⟩
      rcases answer with err | _ | f
      · exact .inl ⟨by rwa [List.append_nil], hsame⟩
      · have hcount : e₁.disk.pageCount e₁.pageSize table = e.disk.pageCount e.pageSize table := by
          unfold Disk.pageCount Disk.contents
          rw [hdisk.1, hdisk.2]
        rcases insertAtEnd_cases (show e₁.catalog.table? id = .ok table by rw [hcatalog, ht]) txn t with
          ⟨hevents, hfiles⟩ | ⟨e₂, l, hevents, hpath, hpool, hrest, hfiles⟩
        · refine .inl ⟨?_, hfiles.trans hsame⟩
          simp only [hevents, List.append_nil]
          exact hnone
        · rw [hcount] at hpath
          refine .inr ⟨e₁, e₂, l, Decidable.not_not.mp hschema, hamong, hpath, hpool, hrest, fun event hm => ?_, ?_⟩
          · simp only [hevents]
            exact List.mem_append_right _ (List.mem_cons_of_mem _ hm)
          · refine hfiles.trans ?_
            unfold Disk.setContents Disk.contents
            rw [hdisk.1, hdisk.2]
      · exact .inl ⟨by rwa [List.append_nil], hsame⟩

/-- An insert appends nothing, or it appends one page after a walk that has found no room. -/
theorem insertTuple_cases (ht : e.catalog.table? id = .ok table) (txn : TxnId) (t : Tuple) :
    ((∀ p, .appended p ∉ e.insertEvents txn id t) ∧ (e.insertTuple txn id t).1.disk.files = e.disk.files) ∨
      ∃ e₁ e₂ l, Appends e txn table t (e.insertEvents txn id t) e₁ e₂ l (e.insertTuple txn id t).1 := by
  have hfinish := path_finishChange txn table (e.insertInto txn table t) (.refl _)
  have hquiet : ∀ p, .appended p ∉ finishEvents txn table (e.insertInto txn table t) := fun p hm =>
    forall_finishEvents (P := (· ≠ .appended p)) (fun _ _ => nofun) (fun _ => nofun) (fun _ => nofun) _ _ hm rfl
  have hfiles := hfinish.files_eq hquiet fun p hm =>
    forall_finishEvents (P := (· ≠ .written p)) (fun _ _ => nofun) (fun _ => nofun) (fun _ => nofun) _ _ hm rfl
  have hinsert : (e.insertTuple txn id t).1 = (finishChange txn table (e.insertInto txn table t)).1 := by
    unfold insertTuple
    rw [ht]
  have hevents : e.insertEvents txn id t =
      e.insertIntoEvents txn table t ++ finishEvents txn table (e.insertInto txn table t) := by
    unfold insertEvents
    rw [ht]
  rw [hinsert, hevents]
  rcases insertInto_cases ht txn t with ⟨hno, hkept⟩ | ⟨e₁, e₂, l, happends⟩
  · exact .inl ⟨fun p => List.not_mem_append (hno p) (hquiet p), hfiles.trans hkept⟩
  · refine .inr ⟨e₁, e₂, _, happends.schema, happends.walked, happends.append, happends.pool,
      happends.rest.trans hfinish, ?_, hfiles.trans happends.files⟩
    exact List.forall_mem_append.mpr ⟨fun event hm => List.mem_append_left _ (happends.among event hm),
      fun event hm => List.mem_append_right _ hm⟩

theorem Appends.contents_eq {events : List Event} {e₁ e₂ : Engine} (h : Appends e txn table t events e₁ e₂ l e')
    (hplaced : table.file < e.disk.files.length) :
    e'.disk.contents table.file = PageFile.append e.pageSize (e.disk.contents table.file) := by
  have hset := Disk.contents_setContents hplaced (PageFile.append e.pageSize (e.disk.contents table.file)) table.file
  rw [if_pos rfl] at hset
  show e'.disk.files.getD table.file SparseBytes.empty = _
  rw [h.files]
  exact hset

/-- An insert has put a zero page at the place that the count of pages tells, and left every other page of the file as it
was. Before that it had found every page of the table full. -/
structure Grew (e : Engine) (txn : TxnId) (table : Table) (e' : Engine) : Prop where
  count_le : e'.disk.pageCount e.pageSize table ≤ e.disk.pageCount e.pageSize table + 1
  pages : ∀ n, PageFile.page? e.pageSize n (e'.disk.contents table.file) =
    if n = e.disk.pageCount e.pageSize table then some (Bytes.zeros e.pageSize)
    else PageFile.page? e.pageSize n (e.disk.contents table.file)
  full : ∀ n < e.disk.pageCount e.pageSize table, FoundFull e e' txn ⟨table.id, n⟩

/-- Whether it succeeds or not, an insert leaves its table's file as it was, or it has the table's schema and has made the
file grow by a zero page, with no room before it. -/
theorem insert_grows (hs : e.pool.Sane) (hpos : 0 < e.pageSize) (ht : e.catalog.table? id = .ok table) (txn : TxnId)
    (t : Tuple) :
    (e.insertTuple txn id t).1.disk.contents table.file = e.disk.contents table.file ∨
      t.schema = table.schema ∧ Grew e txn table (e.insertTuple txn id t).1 := by
  rcases insertTuple_cases ht txn t with ⟨_, hsame⟩ | ⟨e₁, e₂, l, happends⟩
  · left
    unfold Disk.contents
    rw [hsame]
  · by_cases hplaced : table.file < e.disk.files.length
    · have hcontents := happends.contents_eq hplaced
      refine .inr ⟨happends.schema, ?_, ?_, fun n hn => ?_⟩
      · unfold Disk.pageCount
        rw [hcontents]
        exact (PageFile.pageCount_append_le hpos _).1
      · rw [hcontents]
        exact PageFile.page?_append hpos _
      · exact (foundFull_of_walk hs happends.walked (Nat.zero_le n) (by omega)).after
          (happends.append.trans happends.rest)
    · -- A table over no file at all has nothing to append to.
      left
      unfold Disk.contents
      rw [happends.files]
      unfold Disk.setContents
      rw [List.set_eq_of_length_le (Nat.le_of_not_lt hplaced)]

/-! ## Pages without rows -/

/-- There is no row on the page, in memory or on file. -/
structure Vacant (e : Engine) (q : PageId) : Prop where
  copy : ∀ page, e.copy? q = some page → e.Legal page ∧ ∀ slot, page.tuple? slot = none
  file : ∀ page, e.onFile q = .ok page → ∀ slot, page.tuple? slot = none

theorem Vacant.read (hv : e.Vacant q) (hl : e.Layout) {page : Page} (hp : e.onFile q = .ok page) :
    e.Legal page ∧ ∀ slot, page.tuple? slot = none := by
  refine ⟨legal_of_fits hl hp fun t ht => ?_, hv.file page hp⟩
  obtain ⟨slot, hrow⟩ := Page.mem_tuples.mp ht
  cases hrow.symm.trans (hv.file page hp slot)

/-- A page stays without rows until one is stored on it. -/
theorem Step.vacant (hstep : Step e l e') (h : e.Housed) (hl : ∀ txn f, .handed txn f ∉ l)
    (hstored : ∀ txn r t, .stored txn r t ∈ l → r.page ≠ q) (hv : e.Vacant q) : e'.Vacant q := by
  obtain ⟨hcatalog, hsize, _⟩ := hstep.fixed
  refine ⟨fun new hc => ?_, fun new hp => ?_⟩
  · suffices hlegal : e.Legal new ∧ ∀ slot, new.tuple? slot = none from
      ⟨hlegal.1.congr hcatalog hsize, hlegal.2⟩
    cases hstep.copied h.sane hl hc with
    | kept hold => exact hv.copy new hold
    | loaded _ hp => exact hv.read h.toLayout hp
    | restored _ hp => exact hv.read h.toLayout hp
    | based hold he =>
      obtain ⟨⟨hexact, hsized, hschema⟩, hnone⟩ := hv.copy _ hold
      rw [he]
      exact ⟨⟨hexact.setBeforeImage, hsized, hschema⟩, hnone⟩
    | written _ hold he =>
      obtain ⟨hlegal, hnone⟩ := hv.copy _ hold
      rw [he]
      exact ⟨hlegal.markDirty none, hnone⟩
    | stored hm hr => exact absurd hr (hstored _ _ _ hm)
    | removed _ _ hold hd =>
      obtain ⟨hlegal, hnone⟩ := hv.copy _ hold
      have htaken := (hlegal.exact.toShaped.delete_eq_ok hd).2.2.2
      rw [hnone] at htaken
      cases htaken
  · by_cases hw : .written q ∈ l
    · obtain ⟨_, page, _, hcopy, _, himage, _⟩ := hstep.image?_of_written h hw
      obtain ⟨hlegal, hnone⟩ := hv.copy page hcopy
      rw [← h.sane.id_of_copy? hcopy] at himage hp
      cases hp.symm.trans ((hlegal.congr hcatalog hsize).onFile (hstep.layout h.toLayout) himage)
      intro slot
      rw [Page.tuple?_reread, hnone]
      rfl
    · rcases hstep.image?_of_not_written h hw with hsame | hzero
      · exact hv.file new ((onFile_iff_of_image? h.toLayout (hstep.layout h.toLayout) hcatalog hsize hsame).mp hp)
      · obtain ⟨_, image, _, himage, hd⟩ := (onFile_eq (hstep.layout h.toLayout) q).mp hp
        cases himage.symm.trans hzero
        rw [← hsize] at hd
        exact Page.tuple?_of_decode_zeros hd

theorem Path.vacant (hpath : Path e l e') (h : e.Housed)
    (hl : ∀ event ∈ l, (∀ txn f, event ≠ .handed txn f) ∧ ∀ txn r t, event = .stored txn r t → r.page ≠ q)
    (hv : e.Vacant q) : e'.Vacant q :=
  hpath.preserves_housed (I := (Vacant · q)) (fun txn f hs => hs.1 txn f rfl)
    (fun hstep h hl hv => hstep.vacant h (fun txn f hm => (hl _ hm).1 txn f rfl)
      (fun txn r t hm => (hl _ hm).2 txn r t rfl) hv) h hl hv

/-- No walk finds a page without rows full, if its table has a slot to a page. -/
theorem Vacant.not_foundFull (hv : e.Vacant q) (h : e.Housed) (ht : e.catalog.table? q.table = .ok table)
    (hslots : 0 < table.schema.slotCount e.pageSize) : ¬ FoundFull e e' txn q := by
  rintro ⟨l, m, _, page, hpath, hl, _, hcopy, hroom, _⟩
  have hgranted : ∀ event ∈ l, (∀ txn f, event ≠ .handed txn f) ∧ ∀ txn r t, event = .stored txn r t → r.page ≠ q := by
    intro event hm
    obtain ⟨_, _, rfl⟩ := hl event hm
    exact ⟨fun _ _ => nofun, fun _ _ _ => nofun⟩
  have hhoused := hpath.housed h fun txn f hm => (hgranted _ hm).1 txn f rfl
  obtain ⟨hcatalog, hsize, _⟩ := hpath.fixed
  obtain ⟨hlegal, hnone⟩ := (hpath.vacant h hgranted hv).copy page hcopy
  have hlength := hlegal.slots_length (show m.catalog.table? page.id.table = .ok table by
    rw [hhoused.sane.id_of_copy? hcopy, hcatalog]
    exact ht)
  rw [hsize] at hlength
  have hfree := (Page.freeSlots_pos page).mpr ⟨0, by rw [hlength]; exact hslots, hnone 0⟩
  omega

/-! ## Tables that no insert gets into -/

/-- How many pages a table has got since it had `count`: none, one without rows, or none as far as page numbers tell,
because they have all been given out. -/
inductive Stalled (e : Engine) (table : Table) (count : Nat) : Prop where
  | same (hcount : e.disk.pageCount e.pageSize table = count)
  | vacant (hcount : e.disk.pageCount e.pageSize table = count + 1) (hv : e.Vacant ⟨table.id, count⟩)
  | used (hcount : e.disk.pageCount e.pageSize table ≤ count + 1)
      (hused : PageFile.numbers * e.pageSize ≤ (e.disk.contents table.file).length)

theorem Stalled.count_le {count : Nat} (h : e.Stalled table count) : e.disk.pageCount e.pageSize table ≤ count + 1 := by
  cases h <;> omega

theorem not_stored_of_failed (h : e.Housed) {a : Action} {id : TableId}
    (hfail : ∀ txn t, a = .ask (.insert txn id t) → (e.insertTuple txn id t).2 ≠ .ok ()) {txn : TxnId} {r : RecordId}
    {t : Tuple} (hm : .stored txn r t ∈ e.events a) : r.page.table ≠ id := by
  rintro rfl
  have ha := inserts_of_stored h.toLayout h.sane hm
  rw [ha] at hm
  exact hfail txn t ha (insertTuple_of_stored h.plain h.sane hm).1

theorem inserts_of_appended (h : e.Housed) {a : Action} {p : PageId} (hm : .appended p ∈ e.events a) :
    ∃ txn t, a = .ask (.insert txn p.table t) := by
  obtain ⟨txn, id, t, rfl⟩ := Action.MayLeave.inserts_of_adds (mayLeave_of_mem_events _ hm) rfl
  rw [addsTo_insertEvents h.toLayout h.sane _ hm _ rfl]
  exact ⟨txn, t, rfl⟩

/-- The page that was just appended has no rows. -/
theorem Appends.vacant {events : List Event} {e₁ e₂ : Engine} (happends : Appends e txn table t events e₁ e₂ l e')
    (h : e.Housed) (ht : e.catalog.table? table.id = .ok table)
    (hevents : ∀ event ∈ l, (∀ txn f, event ≠ .handed txn f) ∧ ∀ txn r t, event = .stored txn r t →
      r.page ≠ ⟨table.id, e.disk.pageCount e.pageSize table⟩)
    (hrange : (e.disk.contents table.file).length < PageFile.numbers * e.pageSize) :
    e'.Vacant ⟨table.id, e.disk.pageCount e.pageSize table⟩ := by
  have hwalk := ranged_insertAmong txn table.id t (e.disk.pageCount e.pageSize table) 0 e
  rw [happends.walked] at hwalk
  obtain ⟨hpath, hfiles⟩ := hwalk
  generalize hq : (⟨table.id, e.disk.pageCount e.pageSize table⟩ : PageId) = q at hevents ⊢
  have hhoused : e₁.Housed := hpath.path.housed h fun txn' f hm =>
    forall_insertAmongEvents (P := (· ≠ .handed txn' f)) (fun _ _ => nofun) (fun _ => nofun) _ _ e _ hm rfl
  have himage : e₁.image? q = none := by
    rw [image?_congr hpath.path.fixed.1 hpath.path.fixed.2.1 hfiles, ← hq, image?_of_table ht]
    exact PageFile.page?_pageCount h.pageSize_pos hrange
  have hcopy : e₁.copy? q = none := by
    cases hcopy : e₁.copy? q with
    | none => rfl
    | some page =>
      have hon := hhoused.on_file q page hcopy
      rw [himage] at hon
      cases hon
  have happend := happends.append
  rw [hq] at happend
  have hhoused' : e₂.Housed := happend.housed hhoused fun _ _ hm => by cases List.mem_singleton.mp hm
  refine happends.rest.vacant hhoused' hevents ⟨fun page hc => ?_, fun page hp => ?_⟩
  · unfold Engine.copy? at hc hcopy
    rw [happends.pool, hcopy] at hc
    cases hc
  · obtain ⟨_, image, _, hi, hd⟩ := (onFile_eq hhoused'.toLayout q).mp hp
    rcases happend.image?_of_not_written hhoused (fun _ _ hm => by cases List.mem_singleton.mp hm)
      (fun hm => by cases List.mem_singleton.mp hm) with hsame | hzero
    · rw [hsame, himage] at hi
      cases hi
    · cases hi.symm.trans hzero
      rw [← happend.fixed.2.1] at hd
      exact Page.tuple?_of_decode_zeros hd

/-- A failed insert appends nothing behind a page without rows. -/
theorem Appends.stalled {events : List Event} {e₁ e₂ : Engine} {count : Nat}
    (happends : Appends e txn table t events e₁ e₂ l e') (h : e.Housed) (ht : e.catalog.table? table.id = .ok table)
    (hslots : 0 < table.schema.slotCount e.pageSize) (hsize : e'.pageSize = e.pageSize)
    (hevents : ∀ event ∈ l, (∀ txn f, event ≠ .handed txn f) ∧ ∀ txn r t, event = .stored txn r t →
      r.page.table ≠ table.id)
    (hstalled : e.Stalled table count) : e'.Stalled table count := by
  have hpos := h.pageSize_pos
  have hcontents := happends.contents_eq (h.placed _ _ ht)
  have hcount : e'.disk.pageCount e'.pageSize table =
      PageFile.pageCount e.pageSize (PageFile.append e.pageSize (e.disk.contents table.file)) := by
    rw [← hcontents, ← hsize]
    rfl
  have hlength : (e.disk.contents table.file).length ≤ (e'.disk.contents table.file).length := by
    rw [hcontents]
    exact PageFile.length_le_append ..
  cases hstalled with
  | same hsame =>
    by_cases hrange : (e.disk.contents table.file).length < PageFile.numbers * e.pageSize
    · by_cases hafter : (e'.disk.contents table.file).length < PageFile.numbers * e.pageSize
      · refine .vacant ?_ ?_ <;> rw [← hsame]
        · rw [hcontents] at hafter
          exact hcount.trans (PageFile.pageCount_append hpos hafter)
        · refine happends.vacant h ht (fun event hm => ⟨(hevents event hm).1, fun txn r t he hr => ?_⟩) hrange
          exact (hevents event hm).2 txn r t he (by rw [hr])
      · refine .used ?_ (by rw [hsize]; exact Nat.le_of_not_lt hafter)
        rw [hcount, ← hsame]
        exact (PageFile.pageCount_append_le hpos _).1
    · refine .same ?_
      rw [hcount, ← hsame]
      exact PageFile.pageCount_append_of_used hpos (Nat.le_of_not_lt hrange)
  | vacant hsame hv =>
    -- The walk would have found room on the page.
    have hlt : count < 0 + e.disk.pageCount e.pageSize table := by omega
    exact absurd (foundFull_of_walk h.sane happends.walked (Nat.zero_le count) hlt) (hv.not_foundFull h ht hslots)
  | used hle hused =>
    refine .used ?_ (by rw [hsize]; exact Nat.le_trans hused hlength)
    rw [hcount, PageFile.pageCount_append_of_used hpos hused]
    exact hle

/-- No action but an insert that succeeds gets a stalled table any further. -/
theorem Stalled.act {count : Nat} (hstalled : e.Stalled table count) (h : e.Housed)
    (ht : e.catalog.table? table.id = .ok table) (hslots : 0 < table.schema.slotCount e.pageSize) {a : Action}
    (hfail : ∀ txn t, a = .ask (.insert txn table.id t) → (e.insertTuple txn table.id t).2 ≠ .ok ()) :
    (e.act a).Stalled table count := by
  have hpath := path_act e a
  have hhanded := not_handed_of_mem_events h.plain h.sane a
  have hstored : ∀ txn r t, .stored txn r t ∈ e.events a → r.page.table ≠ table.id := fun _ _ _ hm =>
    not_stored_of_failed h hfail hm
  by_cases ha : ∃ p, .appended p ∈ e.events a ∧ p.table = table.id
  · obtain ⟨p, hm, hp⟩ := ha
    obtain ⟨txn, t, rfl⟩ := inserts_of_appended h hm
    rw [hp] at hm hpath hhanded hstored ⊢
    obtain ⟨e₁, e₂, l, happends⟩ := (insertTuple_cases ht txn t).resolve_left fun hno => hno.1 p hm
    refine happends.stalled h ht hslots hpath.fixed.2.1 (fun event hmem => ⟨?_, ?_⟩) hstalled
    · rintro txn' f rfl
      exact hhanded txn' f (happends.among _ hmem)
    · rintro txn' r u rfl
      exact hstored txn' r u (happends.among _ hmem)
  · have hcount := hpath.pageCount_eq h hhanded ht fun p hm hp => ha ⟨p, hm, hp⟩
    cases hstalled with
    | same hsame => exact .same (hcount.trans hsame)
    | vacant hsame hv =>
      refine .vacant (hcount.trans hsame) (hpath.vacant h (fun event hm => ⟨?_, ?_⟩) hv)
      · rintro txn f rfl
        exact hhanded txn f hm
      · rintro txn r t rfl hr
        exact hstored txn r t hm (by rw [hr])
    | used hle hused =>
      refine .used (by rw [hcount]; exact hle) ?_
      exact hpath.preserves (I := fun m => PageFile.numbers * m.pageSize ≤ (m.disk.contents table.file).length)
        (fun _ _ _ hstep hle => by rw [hstep.fixed.2.1]; exact Nat.le_trans hle (hstep.length_le _)) hused

/-- While no insert into a table succeeds the table stays stalled. -/
theorem Stalled.acts {count : Nat} {as : List Action} (hstalled : e.Stalled table count) (h : e.Housed)
    (ht : e.catalog.table? table.id = .ok table) (hslots : 0 < table.schema.slotCount e.pageSize)
    (hfail : ∀ seen txn t rest, as = seen ++ .ask (.insert txn table.id t) :: rest →
      ((e.acts seen).insertTuple txn table.id t).2 ≠ .ok ()) :
    (e.acts as).Stalled table count := by
  induction as generalizing e with
  | nil => exact hstalled
  | cons a rest ih =>
    obtain ⟨hcatalog, hsize, _⟩ := (path_act e a).fixed
    refine ih (hstalled.act h ht hslots fun txn t ha => ?_) (h.act a) (by rw [hcatalog]; exact ht)
      (by rw [hsize]; exact hslots) fun seen txn t later hsplit => ?_
    · exact hfail [] txn t rest (by rw [ha]; rfl)
    · exact hfail (a :: seen) txn t later (by rw [hsplit]; rfl)

/-- An insert that fails leaves its table's file as it was, or it has put a zero page behind the others, none of which had
room. If there is a slot to a page, the file grows by one page at most as long as no insert into the table
succeeds, whichever actions come one after the other and whatever fails. -/
theorem failed_insert_growth :
    (∀ (e : Engine) (id : TableId) (table : Table) (txn : TxnId) (t : Tuple) (err : StorageError), e.Reached →
      0 < e.pageSize → e.catalog.table? id = .ok table → (e.insertTuple txn id t).2 = .error err →
      (e.insertTuple txn id t).1.disk.contents table.file = e.disk.contents table.file ∨
        t.schema = table.schema ∧ Grew e txn table (e.insertTuple txn id t).1) ∧
    ∀ (e : Engine) (table : Table) (before during : List Action), e.Opened →
      e.catalog.table? table.id = .ok table → 0 < table.schema.slotCount e.pageSize →
      (∀ seen txn t rest, during = seen ++ .ask (.insert txn table.id t) :: rest →
        ((e.acts (before ++ seen)).insertTuple txn table.id t).2 ≠ .ok ()) →
      (e.acts (before ++ during)).disk.pageCount e.pageSize table ≤
        (e.acts before).disk.pageCount e.pageSize table + 1 := by
  refine ⟨fun e id table txn t err h hpos ht _ => insert_grows h.sound.1 hpos ht txn t,
    fun e table before during hopen ht hslots hfail => ?_⟩
  have hfixed := fun as => (path_acts e as).fixed
  have hstalled : (e.acts before).Stalled table ((e.acts before).disk.pageCount (e.acts before).pageSize table) :=
    .same rfl
  have hstill : ∀ seen txn t rest, during = seen ++ .ask (.insert txn table.id t) :: rest →
      (((e.acts before).acts seen).insertTuple txn table.id t).2 ≠ .ok () := by
    intro seen txn t rest hsplit
    rw [← acts_append]
    exact hfail seen txn t rest hsplit
  have hlast := hstalled.acts (hopen.firm.acts before).toHoused (by rw [(hfixed before).1]; exact ht)
    (by rw [(hfixed before).2.1]; exact hslots) hstill
  have hle := hlast.count_le
  rw [← acts_append, (hfixed (before ++ during)).2.1, (hfixed before).2.1] at hle
  exact hle

def narrow : Engine := single 2 ⟨1, 2, none⟩ flagSchema

def crowded : Engine := narrow.acts [.ask (.insert ⟨1⟩ ⟨0⟩ (flagRow true))]

/-- The second insert and the third fail, and the file has grown by one page. -/
theorem failed_insert_growth_by_one :
    ((crowded.insertTuple ⟨1⟩ ⟨0⟩ (flagRow false)).1.disk.contents 0 = crowded.disk.contents 0 ∨
      (flagRow false).schema = flagSchema ∧
        Grew crowded ⟨1⟩ (singleTable flagSchema) (crowded.insertTuple ⟨1⟩ ⟨0⟩ (flagRow false)).1) ∧
    (narrow.acts ([.ask (.insert ⟨1⟩ ⟨0⟩ (flagRow true))] ++ [.ask (.insert ⟨1⟩ ⟨0⟩ (flagRow false)),
        .ask (.insert ⟨2⟩ ⟨0⟩ (flagRow false))])).disk.pageCount narrow.pageSize (singleTable flagSchema) ≤
      (narrow.acts [.ask (.insert ⟨1⟩ ⟨0⟩ (flagRow true))]).disk.pageCount narrow.pageSize (singleTable flagSchema) +
        1 := by
  have hopen : narrow.Opened := (fresh_single (by decide) _ _).opened
  refine ⟨failed_insert_growth.1 crowded ⟨0⟩ (singleTable flagSchema) ⟨1⟩ (flagRow false) .bufferPoolFull
    (.acts (.start rfl rfl) _) (by decide) rfl rfl, ?_⟩
  refine failed_insert_growth.2 narrow (singleTable flagSchema) _ _ hopen rfl (by decide)
    fun seen txn t rest hsplit => ?_
  rcases seen with _ | ⟨first, _ | ⟨second, more⟩⟩
  · cases hsplit
    exact nofun
  · cases hsplit
    exact nofun
  · cases more <;> cases hsplit

/-- An insert that fails because no page in memory may be given up has appended a page. Where there is no slot to a page
every insert fails and appends one more. -/
theorem failed_insert_appends :
    ((crowded.insertTuple ⟨1⟩ ⟨0⟩ (flagRow false)).2 = .error .bufferPoolFull ∧
      crowded.disk.pageCount 2 (singleTable flagSchema) = 1 ∧
      (crowded.insertTuple ⟨1⟩ ⟨0⟩ (flagRow false)).1.disk.pageCount 2 (singleTable flagSchema) = 2) ∧
    (((single 1 ⟨4, 2, none⟩ flagSchema).insertTuple ⟨1⟩ ⟨0⟩ (flagRow true)).2 = .error (.pageFull ⟨⟨0⟩, 0⟩) ∧
      (((single 1 ⟨4, 2, none⟩ flagSchema).act (.ask (.insert ⟨1⟩ ⟨0⟩ (flagRow true)))).insertTuple ⟨1⟩ ⟨0⟩
        (flagRow true)).2 = .error (.pageFull ⟨⟨0⟩, 1⟩) ∧
      ((single 1 ⟨4, 2, none⟩ flagSchema).acts [.ask (.insert ⟨1⟩ ⟨0⟩ (flagRow true)),
        .ask (.insert ⟨1⟩ ⟨0⟩ (flagRow true))]).disk.pageCount 1 (singleTable flagSchema) = 2) := by
  refine ⟨⟨rfl, ?_, ?_⟩, rfl, rfl, ?_⟩ <;> decide +kernel

end Engine

end RowStore
