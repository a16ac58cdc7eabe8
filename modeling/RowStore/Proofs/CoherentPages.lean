import RowStore.Proofs.PageCopies

/-!
# What a page shows to whoever reads it

A clean copy of a page may be given up at any time and read again from its file, so a reader sees the same rows again
only if both show the same. That is so from the opening of a store on, for the pages of a table whose rows fit their
columns. What a page shows then stays the same until a row of it is stored or removed, it is read again in an abort,
dropped, or a zero page is put on its place of the file. Flushes and baselines leave it as it is.
-/

namespace RowStore

/-- Whether an event may change what a page shows. -/
def Event.Disturbs (q : PageId) : Event → Prop
  | .stored _ r _ => r.page = q
  | .removed _ r => r.page = q
  | .restored page => page = q
  | .discarded page => page = q
  | .appended page => page = q
  | .handed _ _ => True
  | _ => False

/-- Whether an event may put another page in the place of one, with all of its rows. -/
def Event.Replaces (q : PageId) : Event → Prop
  | .restored page => page = q
  | .discarded page => page = q
  | .appended page => page = q
  | .handed _ _ => True
  | _ => False

theorem Event.Replaces.disturbs {q : PageId} {event : Event} (h : event.Replaces q) : event.Disturbs q := by
  cases event with
  | stored | removed => exact h.elim
  | restored | discarded | appended | handed | granted | based | written | completed | released => exact h

namespace Engine

variable {e e' : Engine} {l : List Event} {q : PageId} {id : TableId} {table : Table}

/-- The entries that a page shows, in whatever way it is read. -/
structure ShowsEntries (e : Engine) (q : PageId) (entries : List (Option RecordId × Bytes)) : Prop where
  copy : ∀ page, e.copy? q = some page → page.entries = entries
  file : e.mark? q = none → ∃ page, e.onFile q = .ok page ∧ page.entries = entries

theorem Step.same (hstep : Step e l e') {event event' : Event} (hm : event ∈ l) (hm' : event' ∈ l) :
    event = event' := by
  cases hstep <;> first
    | exact (List.mem_singleton.mp hm).trans (List.mem_singleton.mp hm').symm
    | exact absurd hm List.not_mem_nil

structure EveryReading (e : Engine) (q : PageId) (P : List (Option RecordId × Bytes) → Prop) : Prop where
  copy : ∀ page, e.copy? q = some page → P page.entries
  file : e.mark? q = none → ∃ page, e.onFile q = .ok page ∧ P page.entries

/-- What is true of all that can be read of a page stays true through every step in which no other page takes its place,
if storing and removing a row keep it true. -/
theorem Step.everyReading {P : List (Option RecordId × Bytes) → Prop} (hstep : Step e l e') (h : e.Housed)
    (hf : e.Fitting q.table) (hs : e.EveryReading q P) (hl : ∀ event ∈ l, ¬ event.Replaces q)
    (hstored : ∀ {txn r t} {old new : Page}, .stored txn r t ∈ l → r.page = q → old.Exact →
      old.insert t = .ok (new, r) → P old.entries → P new.entries)
    (hremoved : ∀ {txn r} {old new : Page}, .removed txn r ∈ l → r.page = q → old.Exact →
      old.delete (some r) = .ok new → P old.entries → P new.entries) :
    e'.EveryReading q P := by
  have hhanded : ∀ txn f, .handed txn f ∉ l := fun _ _ hm => hl _ hm trivial
  refine ⟨fun new hc => ?_, fun hmark => ?_⟩
  · cases hstep.copied h.sane hhanded hc with
    | kept hold => exact hs.copy new hold
    | loaded hn hp =>
      obtain ⟨page, hpage, hshow⟩ := hs.file (by unfold mark?; rw [hn]; rfl)
      cases hp.symm.trans hpage
      exact hshow
    | restored hm => exact (hl _ hm rfl).elim
    | based hold he =>
      rw [he, Page.entries_setBeforeImage]
      exact hs.copy _ hold
    | written _ hold he =>
      rw [he, Page.entries_markDirty]
      exact hs.copy _ hold
    | stored hm hr hold hi he =>
      rw [he, Page.entries_markDirty]
      exact hstored hm hr (hf.copies q _ rfl hold).exact hi (hs.copy _ hold)
    | removed hm hr hold hd he =>
      rw [he, Page.entries_markDirty]
      exact hremoved hm hr (hf.copies q _ rfl hold).exact hd (hs.copy _ hold)
  · by_cases hw : .written q ∈ l
    · obtain ⟨page, hcopy, hlegal, hread⟩ := hstep.onFile_of_written h hf hw
      exact ⟨page.reread, hread, by rw [hlegal.exact.entries_reread]; exact hs.copy page hcopy⟩
    · have hbefore : e.mark? q = none := by
        by_contra hmarked
        rw [(Path.one hstep).marks h.sane hhanded] at hmark
        exact Event.foldl_onMark_ne_none hw (fun hm => hl _ hm rfl) (fun hm => hl _ hm rfl) hmarked hmark
      obtain ⟨page, hpage, hshow⟩ := hs.file hbefore
      exact ⟨page, (hstep.onFile_iff h hw fun hm => hl _ hm rfl).mpr hpage, hshow⟩

/-- What a page shows lasts through every step that does not disturb it. -/
theorem Step.showsEntries (hstep : Step e l e') (h : e.Housed) (hf : e.Fitting q.table)
    {entries : List (Option RecordId × Bytes)} (hs : e.ShowsEntries q entries) (hl : ∀ event ∈ l, ¬ event.Disturbs q) :
    e'.ShowsEntries q entries := by
  have hsame : e'.EveryReading q (· = entries) :=
    hstep.everyReading h hf ⟨hs.copy, hs.file⟩ (fun event hm hr => hl event hm hr.disturbs)
      (fun hm hr => (hl _ hm hr).elim) (fun hm hr => (hl _ hm hr).elim)
  exact ⟨hsame.copy, hsame.file⟩

theorem Path.showsEntries (hpath : Path e l e') (h : e.Housed) (hf : e.Fitting q.table)
    {entries : List (Option RecordId × Bytes)} (hs : e.ShowsEntries q entries)
    (hl : ∀ event ∈ l, event.Suits q.table ∧ ¬ event.Disturbs q) : e'.ShowsEntries q entries := by
  refine (hpath.preserves_housed (I := fun e => e.Fitting q.table ∧ e.ShowsEntries q entries)
    (fun _ _ hs => hs.1) ?_ h hl ⟨hf, hs⟩).2
  rintro e l e' hstep h hl ⟨hf, hs⟩
  exact ⟨hstep.fitting h (fun event hm => (hl event hm).1) hf,
    hstep.showsEntries h hf hs fun event hm => (hl event hm).2⟩

/-- The clean copies of a table's pages show what their file shows. -/
def Coherent (e : Engine) (table : Table) : Prop :=
  ∀ q copy page, q.table = table.id → q.number < e.disk.pageCount e.pageSize table → e.copy? q = some copy →
    copy.dirtier = none → e.onFile q = .ok page → copy.entries = page.entries

theorem Opened.coherent (h : e.Opened) (table : Table) : e.Coherent table := fun q copy _ _ _ hc => by
  rw [h.copy?] at hc
  cases hc

theorem Coherent.showsEntries (hc : e.Coherent table) (h : e.Housed) (ht : e.catalog.table? q.table = .ok table)
    (hn : q.number < e.disk.pageCount e.pageSize table) : ∃ entries, e.ShowsEntries q entries := by
  cases hmark : e.mark? q with
  | none =>
    obtain ⟨page, hpage⟩ := h.onFile_of_lt ht hn
    refine ⟨page.entries, fun copy hcopy => ?_, fun _ => ⟨page, hpage, rfl⟩⟩
    refine hc q copy page (h.keyed _ _ ht).symm hn hcopy ?_ hpage
    unfold mark? at hmark
    rwa [hcopy] at hmark
  | some txn =>
    obtain ⟨copy, hcopy, _⟩ := Option.bind_eq_some_iff.mp hmark
    refine ⟨copy.entries, fun copy' hcopy' => ?_, fun hnone => ?_⟩
    · cases hcopy.symm.trans hcopy'
      rfl
    · cases hmark.symm.trans hnone

theorem Step.copy?_of_appended (hstep : Step e l e') {p : PageId} (hm : .appended p ∈ l) (q : PageId) :
    e'.copy? q = e.copy? q := by
  cases hstep with
  | append => rfl
  | call | countRead | log | force | touch | load => cases hm
  | grant | store | remove | base | write | restore | discard | hand | complete | release =>
    cases List.mem_singleton.mp hm

theorem Step.coherent (hstep : Step e l e') (h : e.Housed) (ht : e.catalog.table? id = .ok table)
    (hf : e.Fitting id) (hl : ∀ txn f, .handed txn f ∉ l) (hc : e.Coherent table) : e'.Coherent table := by
  intro q copy page hq hn hcopy hclean hpage
  have htable : e.catalog.table? q.table = .ok table := by rw [hq, h.keyed _ _ ht]; exact ht
  have hid : q.table = id := hq.trans (h.keyed _ _ ht)
  obtain ⟨happended, hlt⟩ := hstep.lt_pageCount h htable hn
  by_cases hw : .written q ∈ l
  · -- The file has got the resident copy.
    obtain ⟨old, hold, hlegal, hread⟩ := hstep.onFile_of_written h (hid ▸ hf) hw
    cases hread.symm.trans hpage
    rw [hlegal.exact.entries_reread]
    cases hstep.copied h.sane hl hcopy with
    | kept hold' =>
      cases hold.symm.trans hold'
      rfl
    | loaded hnone =>
      cases hnone.symm.trans hold
    | restored hm => cases hstep.same hw hm
    | based hold' he | written _ hold' he =>
      cases hold.symm.trans hold'
      rw [he]
      rfl
    | stored _ _ _ _ he | removed _ _ _ _ he =>
      rw [he] at hclean
      cases hclean
  · by_cases ha : .appended q ∈ l
    · rw [hstep.copy?_of_appended ha, happended ha] at hcopy
      cases hcopy
    · have hbefore := (hstep.onFile_iff h hw ha).mp hpage
      cases hstep.copied h.sane hl hcopy with
      | kept hold => exact hc q copy page hq (hlt ha) hold hclean hbefore
      | loaded _ hp | restored _ hp =>
        cases hp.symm.trans hbefore
        rfl
      | @based old hold he =>
        subst he
        exact hc q old page hq (hlt ha) hold hclean hbefore
      | written hm => exact absurd hm hw
      | stored _ _ _ _ he | removed _ _ _ _ he =>
        rw [he] at hclean
        cases hclean

theorem Path.coherent (hpath : Path e l e') (h : e.Housed) (ht : e.catalog.table? id = .ok table)
    (hf : e.Fitting id) (hl : ∀ event ∈ l, event.Suits id) (hc : e.Coherent table) : e'.Coherent table := by
  refine (hpath.preserves_housed (I := fun e => e.catalog.table? id = .ok table ∧ e.Fitting id ∧ e.Coherent table)
    (fun _ _ hs => hs) ?_ h hl ⟨ht, hf, hc⟩).2.2
  rintro e l e' hstep h hl ⟨ht, hf, hc⟩
  exact ⟨by rw [hstep.fixed.1]; exact ht, hstep.fitting h hl hf, hstep.coherent h ht hf (fun _ _ hm => hl _ hm) hc⟩

end Engine

end RowStore
