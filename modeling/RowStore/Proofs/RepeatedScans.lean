import RowStore.Proofs.CommittedRows
import RowStore.Proofs.InsertTargets
import RowStore.Proofs.ScanReads

/-!
# Repeated scans

A transaction that has scanned a table holds all of its pages. Until the transaction ends nobody else stores or removes
a row on one of them, no other transaction can have a change of one left to undo, and since an insert begins with the
first page, the table gets no further page either. What is flushed, given up and read again shows the same, so a second
scan gives out what the first one did. This takes a first page to begin with: a table without pages has none that could
be held, and rows may appear in it.
-/

namespace RowStore

namespace Action

/-- The transaction that an action inserts or deletes a row for. -/
def changer : Action → Option TxnId
  | .ask (.insert txn _ _) => some txn
  | .ask (.delete txn _) => some txn
  | _ => none

theorem MayLeave.changer {a : Action} {event : Event} (h : a.MayLeave event) {txn : TxnId} {page : PageId}
    (hc : event.ChangedBy txn page) : a.changer = some txn := by
  cases a with
  | ask r =>
    cases r with
    | insert t | delete t =>
      cases event <;> first
        | exact hc.elim
        | exact h.elim
        | exact congrArg some (h.1.symm.trans hc.1)
    | get | commit | abort | flush | flushTxn | flushAll | discard | release =>
      cases event <;> first | exact hc.elim | exact h.elim
  | next s => cases event <;> first | exact hc.elim | exact h.elim
  | scan t table => cases event <;> first | exact hc.elim | exact h.elim

end Action

namespace Engine

variable {e e' : Engine} {table : Table} {reader : TxnId} {a : Action} {count : Nat}
  {shown : Nat → List (Option RecordId × Bytes)}

/-- In a run from an opened store whoever has marked a page holds it until its transaction ends. -/
theorem Opened.locked_of_marked (h : e.Opened) {as : List Action} (ha : ∀ a ∈ as, a.Keeps) {txn : TxnId}
    (hends : ∀ a ∈ as, a.ends ≠ some txn) {page : PageId} (hm : (e.acts as).mark? page = some txn) :
    (e.acts as).locks.modeOf? txn page = some .exclusive := by
  have hfirm := h.firm
  obtain ⟨hadmits, hlocks⟩ := (path_acts e as).locks hfirm.sane
  have hrel : ∀ event ∈ e.history as, LockTable.isRelease event = false :=
    no_release_in_history fun txn page hm => ha _ hm
  have hopen : .completed txn ∉ e.history as := by
    intro hm
    obtain ⟨a, hmem, hl⟩ := mem_history hm
    exact hends a hmem hl.ends
  have hunmarked : e.mark? page = none := by
    unfold mark?
    rw [h.copy?]
    rfl
  rw [(path_acts e as).marks hfirm.sane (not_handed_of_mem_history hfirm.toLayout hfirm.sane as), hunmarked] at hm
  rw [hlocks]
  refine (hfirm.proper.marked hadmits hrel (fun hnone => ?_) hm).resolve_right hopen
  cases hnone

/-- Only the transaction that holds a page changes it. -/
theorem Firm.changer_of_held (h : e.Firm) {q : PageId} {mode : LockMode} (hheld : e.locks.modeOf? reader q = some mode)
    (hends : a.ends ≠ some reader) (hrel : ∀ txn page, a ≠ .ask (.release txn page)) {event : Event} {txn : TxnId}
    (hm : event ∈ e.events a) (hc : event.ChangedBy txn q) : reader = txn := by
  have hreleases : ∀ event ∈ e.events a, LockTable.isRelease event = false := fun event hm =>
    (mayLeave_of_mem_events event hm).not_release hrel
  have hopen : .completed reader ∉ e.events a := fun hm => hends (mayLeave_of_mem_events _ hm).ends
  have hadmits := (h.locks a).1
  obtain ⟨l₁, l₂, hl⟩ := List.append_of_mem hm
  rw [hl] at hreleases hopen hadmits
  obtain ⟨hbefore, hchange, _⟩ := (LockTable.admitsAll_append ..).mp hadmits
  -- The holder still has its lock when the change is made, and a change takes an exclusive one.
  obtain ⟨mode', hmode, _⟩ := h.proper.modeOf?_foldl_after hbefore
    (fun event hm => hreleases event (List.mem_append_left _ hm)) (fun hm => hopen (List.mem_append_left _ hm)) hheld
  cases event with
  | stored | removed =>
    obtain ⟨rfl, rfl⟩ := hc
    exact (h.proper.foldl_after l₁).exclusive_unique hchange hmode
  | _ => exact hc.elim

/-- As long as nobody lets go of a single lock a transaction keeps its locks through the actions of others. -/
theorem Firm.held_act (h : e.Firm) {q : PageId} {mode : LockMode} (hheld : e.locks.modeOf? reader q = some mode)
    (hends : a.ends ≠ some reader) (hrel : ∀ txn page, a ≠ .ask (.release txn page)) :
    ∃ mode, (e.act a).locks.modeOf? reader q = some mode := by
  obtain ⟨hadmits, hlocks⟩ := h.locks a
  obtain ⟨mode', hmode, _⟩ := h.proper.modeOf?_foldl_after hadmits
    (fun event hm => (mayLeave_of_mem_events event hm).not_release hrel)
    (fun hm => hends (mayLeave_of_mem_events _ hm).ends) hheld
  exact ⟨mode', by rw [hlocks]; exact hmode⟩

section Fitting

variable (h : e.Opened) {as : List Action}
  (hfile : ∀ q page, q.table = table.id → e.onFile q = .ok page → ∀ t ∈ page.tuples, t.Fits)
  (hrows : ∀ txn t, .ask (.insert txn table.id t) ∈ as → t.Fits)

include h hrows

theorem Opened.suits : ∀ event ∈ e.history as, event.Suits table.id := by
  intro event hm
  cases event with
  | stored txn r t =>
    intro hid
    have hinsert := inserts_of_stored_history h.toLayout h.firm.sane hm
    rw [hid] at hinsert
    exact hrows txn t hinsert
  | handed txn f => exact not_handed_of_mem_history h.toLayout h.firm.sane as txn f hm
  | granted | removed | appended | based | written | restored | discarded | completed | released => exact trivial

include hfile

/-- If the rows on a table's file fit its columns and those that are inserted into it do, its pages stay exact. -/
theorem Opened.fitting_acts : (e.acts as).Fitting table.id :=
  (path_acts e as).fitting h.firm.toHoused (h.suits hrows) (.of_opened h hfile)

/-- Then every page of the table shows something, however it is read. -/
theorem Opened.exists_shown (ht : e.catalog.table? table.id = .ok table) :
    ∃ shown : Nat → List (Option RecordId × Bytes),
      ∀ n < (e.acts as).disk.pageCount (e.acts as).pageSize table, (e.acts as).ShowsEntries ⟨table.id, n⟩ (shown n) := by
  have hcoherent := (path_acts e as).coherent h.firm.toHoused ht (.of_opened h hfile) (h.suits hrows) (h.coherent table)
  rw [← (path_acts e as).fixed.1] at ht
  have hexists : ∀ n, ∃ entries, n < (e.acts as).disk.pageCount (e.acts as).pageSize table →
      (e.acts as).ShowsEntries ⟨table.id, n⟩ entries := by
    intro n
    by_cases hn : n < (e.acts as).disk.pageCount (e.acts as).pageSize table
    · obtain ⟨entries, hentries⟩ := hcoherent.showsEntries (h.firm.acts as).toHoused (q := ⟨table.id, n⟩) ht hn
      exact ⟨entries, fun _ => hentries⟩
    · exact ⟨[], fun h => absurd h hn⟩
  choose shown hshown using hexists
  exact ⟨shown, hshown⟩

end Fitting

/-- A transaction holds all pages of a table, which show certain entries. -/
structure ReadBy (e : Engine) (reader : TxnId) (table : Table) (count : Nat)
    (shown : Nat → List (Option RecordId × Bytes)) : Prop where
  count_eq : e.disk.pageCount e.pageSize table = count
  held : ∀ n < count, ∃ mode, e.locks.modeOf? reader ⟨table.id, n⟩ = some mode
  shows : ∀ n < count, e.ShowsEntries ⟨table.id, n⟩ (shown n)
  fitting : e.Fitting table.id

/-- A scan of all pages leaves its transaction with all pages of the table. -/
theorem Firm.readBy_of_rowsAmong (h : e.Firm) (ht : e.catalog.table? table.id = .ok table)
    (hf : e.Fitting table.id) (hcount : e.disk.pageCount e.pageSize table = count)
    (hshown : ∀ n < count, e.ShowsEntries ⟨table.id, n⟩ (shown n)) {rows : List Tuple}
    (hrun : rowsAmong reader table.id count 0 e = (e', .ok rows)) : e'.ReadBy reader table count shown := by
  have hpath := path_rowsAmong reader table.id count 0 e
  rw [hrun] at hpath
  have hgranted : ∀ event ∈ rowsEvents reader table.id count 0 e, ∃ page, event = .granted reader page .shared :=
    forall_rowsEvents (fun page => ⟨page, rfl⟩) _ _ _
  have hsuits : ∀ event ∈ rowsEvents reader table.id count 0 e, event.Suits table.id :=
    forall_rowsEvents (fun _ => trivial) _ _ _
  refine ⟨?_, fun n hn => ?_, fun n hn => ?_, hpath.fitting h.toHoused hsuits hf⟩
  · refine (hpath.pageCount_eq h.toHoused (fun _ _ hm => hsuits _ hm) ht fun _ hm => ?_).trans hcount
    obtain ⟨_, he⟩ := hgranted _ hm
    cases he
  · exact held_of_rowsAmong h.sane h.proper hrun n (Nat.zero_le n) (by rwa [Nat.zero_add])
  · exact hpath.showsEntries h.toHoused hf (hshown n hn) (forall_rowsEvents (fun _ => ⟨trivial, not_false⟩) _ _ _)

namespace ReadBy

/-- While a transaction holds the pages of a table nobody else adds to it. -/
theorem not_adds (hr : e.ReadBy reader table count shown) (h : e.Firm)
    (ht : e.catalog.table? table.id = .ok table) (hcount : 0 < count) (hchanger : a.changer ≠ some reader) :
    ∀ event ∈ e.events a, event.addsTo ≠ some table.id := by
  intro event hm hadds
  obtain ⟨txn, id, t, rfl⟩ := (mayLeave_of_mem_events event hm).inserts_of_adds hadds
  obtain rfl := addsTo_insertEvents h.toLayout h.sane event hm _ hadds
  obtain ⟨mode, hmode⟩ := hr.held 0 hcount
  change event ∈ e.insertEvents txn table.id t at hm
  rw [insertEvents_of_held h.toLayout h.sane h.proper ht (by rw [hr.count_eq]; exact hcount) hmode
    fun he => hchanger (congrArg some he.symm)] at hm
  cases hm

/-- While a transaction holds a page of a table nobody else disturbs what the page shows. -/
theorem not_disturbs (hr : e.ReadBy reader table count shown) (h : e.Firm)
    (ht : e.catalog.table? table.id = .ok table) (hkeeps : a.Keeps) (hends : a.ends ≠ some reader)
    (hchanger : a.changer ≠ some reader)
    (hmarked : ∀ txn page, a.ends = some txn → e.mark? page = some txn → e.locks.modeOf? txn page = some .exclusive)
    {n : Nat} (hn : n < count) : ∀ event ∈ e.events a, ¬ event.Disturbs ⟨table.id, n⟩ := by
  intro event hm hd
  obtain ⟨mode, hmode⟩ := hr.held n hn
  have hkind := mayLeave_of_mem_events event hm
  have hchange : ∀ txn, ¬ event.ChangedBy txn ⟨table.id, n⟩ := fun txn hc => by
    obtain rfl := h.changer_of_held hmode hends hkeeps.not_release hm hc
    exact hchanger (hkind.changer hc)
  cases event with
  | stored txn r t => exact hchange txn ⟨rfl, hd⟩
  | removed txn r => exact hchange txn ⟨rfl, hd⟩
  | restored page =>
    -- Whoever aborts has marked the page, and holds it.
    obtain rfl : page = _ := hd
    obtain ⟨txn, sweep, rfl⟩ := hkind.abort
    have hexclusive := hmarked txn _ rfl (marked_of_restored h.sane hm)
    exact hends (congrArg some (h.proper.exclusive_unique hexclusive hmode).symm)
  | discarded page =>
    rw [discarded_of_mem_events h.plain h.sane hm] at hkeeps
    exact hkeeps
  | appended page =>
    obtain rfl : page = _ := hd
    exact hr.not_adds h ht (Nat.zero_lt_of_lt hn) hchanger _ hm rfl
  | handed txn f => exact h.not_handed a txn f hm
  | granted | based | written | completed | released => exact hd

theorem act (hr : e.ReadBy reader table count shown) (h : e.Firm) (ht : e.catalog.table? table.id = .ok table)
    (hcount : 0 < count) (hkeeps : a.Keeps) (hends : a.ends ≠ some reader) (hchanger : a.changer ≠ some reader)
    (hmarked : ∀ txn page, a.ends = some txn → e.mark? page = some txn → e.locks.modeOf? txn page = some .exclusive) :
    (e.act a).ReadBy reader table count shown := by
  have hpath := path_act e a
  have hadds := hr.not_adds h ht hcount hchanger
  have hsuits : ∀ event ∈ e.events a, event.Suits table.id := by
    intro event hm
    cases event with
    | stored txn r t => exact fun hid => absurd (congrArg some hid) (hadds _ hm)
    | handed txn f => exact h.not_handed a txn f hm
    | granted | removed | appended | based | written | restored | discarded | completed | released => exact trivial
  refine ⟨?_, fun n hn => ?_, fun n hn => ?_, hpath.fitting h.toHoused hsuits hr.fitting⟩
  · refine (hpath.pageCount_eq h.toHoused (h.not_handed a) ht fun page hm htable => ?_).trans hr.count_eq
    exact hadds _ hm (congrArg some htable)
  · obtain ⟨_, hmode⟩ := hr.held n hn
    exact h.held_act hmode hends hkeeps.not_release
  · exact hpath.showsEntries h.toHoused hr.fitting (hr.shows n hn) fun event hm =>
      ⟨hsuits event hm, hr.not_disturbs h ht hkeeps hends hchanger hmarked hn event hm⟩

theorem acts {as : List Action} (hr : e.ReadBy reader table count shown) (h : e.Firm)
    (ht : e.catalog.table? table.id = .ok table) (hcount : 0 < count)
    (has : ∀ a ∈ as, a.Keeps ∧ a.ends ≠ some reader ∧ a.changer ≠ some reader)
    (hmarked : ∀ seen a rest, as = seen ++ a :: rest → ∀ txn page, a.ends = some txn →
      (e.acts seen).mark? page = some txn → (e.acts seen).locks.modeOf? txn page = some .exclusive) :
    (e.acts as).ReadBy reader table count shown := by
  induction as generalizing e with
  | nil => exact hr
  | cons a rest ih =>
    obtain ⟨hkeeps, hends, hchanger⟩ := has a List.mem_cons_self
    refine ih (hr.act h ht hcount hkeeps hends hchanger (hmarked [] a rest rfl)) (h.act a)
      (by rw [(path_act e a).fixed.1]; exact ht) (fun b hb => has b (List.mem_cons_of_mem a hb)) ?_
    intro seen b later hsplit
    exact hmarked (a :: seen) b later (by rw [hsplit]; rfl)

end ReadBy

/-! ## The second scan -/

/-- A transaction scans a table from the first row to the last, other actions follow, and it scans the table again, with
what the scans tell about the rows that they give out. Each scan is one uninterrupted block: no other action comes between
its pulls. -/
def ScansTwice (e : Engine) (table : Table) (reader : TxnId) (between : List Action)
    (first second : List (Option RecordId × Bytes)) : Prop :=
  ∃ rows rows' scanned last, Drains e ((Scan.new table reader).openAt e) rows scanned ∧
    Drains (scanned.acts between) ((Scan.new table reader).openAt (scanned.acts between)) rows' last ∧
      rows.map Tuple.entry = first ∧ rows'.map Tuple.entry = second

/-- If a transaction scans a table that has pages, others do whatever they like and it scans the table again before it
ends, then the second scan gives out the same rows in the same places as the first, whatever fails on the way, if
nobody drops a page, lets go of a single lock or ends a transaction twice, and the rows on the table's file and those
inserted into it fit its columns. The others come between the two scans; each scan is pulled from its start to its end
without anything in between. -/
theorem repeated_scan_same_entries (e : Engine) (hopened : e.Opened) (table : Table)
    (htable : e.catalog.table? table.id = .ok table)
    (hfile : ∀ q page, q.table = table.id → e.onFile q = .ok page → ∀ t ∈ page.tuples, t.Fits)
    (before between : List Action) (hkeeps : ∀ a ∈ before ++ between, a.Keeps)
    (honce : ((before ++ between).filterMap Action.ends).Nodup)
    (hrows : ∀ txn t, .ask (.insert txn table.id t) ∈ before → t.Fits) (reader : TxnId)
    (hreader : ∀ a ∈ between, a.ends ≠ some reader ∧ a.changer ≠ some reader)
    (hpages : 0 < (e.acts before).disk.pageCount (e.acts before).pageSize table)
    (first second : List (Option RecordId × Bytes))
    (hscans : (e.acts before).ScansTwice table reader between first second) : second = first := by
  obtain ⟨rows, rows', scanned, last, hfirst, hsecond, rfl, rfl⟩ := hscans
  have ht : ∀ as, (e.acts as).catalog.table? table.id = .ok table := fun as => by
    rw [(path_acts e as).fixed.1]
    exact htable
  have hbefore := hopened.firm.acts before
  have hfitting := hopened.fitting_acts hfile hrows
  obtain ⟨shown, hshown⟩ := hopened.exists_shown hfile hrows htable
  -- The first scan gives out what the pages show and leaves them all locked.
  obtain ⟨hact, hrun⟩ := hfirst.act (ht before)
  have hread := hbefore.readBy_of_rowsAmong (ht before) hfitting rfl hshown hrun
  have hstate : scanned = e.acts (before ++ [.scan reader table.id]) := by
    rw [acts_append, ← hact]
    rfl
  subst hstate
  have hscanned := hopened.firm.acts (before ++ [.scan reader table.id])
  -- So they stay as they are until the second scan.
  have hkept := hread.acts hscanned (ht _) hpages
    (fun a ha => ⟨hkeeps a (List.mem_append_right _ ha), hreader a ha⟩) fun seen a rest hsplit txn page hends hmark => by
      subst hsplit
      rw [← acts_append] at hmark ⊢
      refine hopened.locked_of_marked (fun b hb => ?_) (@Action.not_ended_before _ rest _ _ ?_ hends) hmark
      · simp only [List.mem_append, List.mem_singleton] at hb
        rcases hb with (hb | rfl) | hb
        · exact hkeeps b (List.mem_append_left _ hb)
        · trivial
        · exact hkeeps b (List.mem_append_right _ (List.mem_append_left _ hb))
      · rw [List.append_assoc, List.append_assoc, List.singleton_append, List.filterMap_append,
          List.filterMap_cons_none rfl, ← List.filterMap_append]
        exact honce
  obtain ⟨_, hrun'⟩ := hsecond.act (by rw [← acts_append]; exact ht _)
  rw [hkept.count_eq] at hrun'
  rw [entries_of_rowsAmong hbefore.toHoused hfitting (fun k _ hk => hshown k (by rwa [Nat.zero_add] at hk)) hrun,
    entries_of_rowsAmong (hscanned.acts between).toHoused hkept.fitting
      (fun k _ hk => hkept.shows k (by rwa [Nat.zero_add] at hk)) hrun']

def othersBetween : List Action :=
  [.ask (.insert ⟨2⟩ ⟨0⟩ (flagRow false)), .ask (.flushAll .asListed), .ask (.abort ⟨2⟩ .asListed)]

/-- A committed row is scanned twice, while others try to insert a row and flush and abort. -/
theorem row_scanned_twice :
    ∃ second, (flagStore.acts rowCommitted).ScansTwice (singleTable flagSchema) ⟨3⟩ othersBetween
        [(some ⟨⟨⟨0⟩, 0⟩, 0⟩, [1])] second ∧
      second = [(some ⟨⟨⟨0⟩, 0⟩, 0⟩, [1])] := by
  have hfresh := fresh_single (show 0 < 4 by decide) ⟨2, 2, none⟩ flagSchema
  have hscans : (flagStore.acts rowCommitted).ScansTwice (singleTable flagSchema) ⟨3⟩ othersBetween
      [(some ⟨⟨⟨0⟩, 0⟩, 0⟩, [1])] [(some ⟨⟨⟨0⟩, 0⟩, 0⟩, [1])] :=
    ⟨_, _, _, _, .of_row rfl (.of_end rfl), .of_row rfl (.of_end rfl), by decide, by decide⟩
  refine ⟨_, hscans, repeated_scan_same_entries _ hfresh.opened (singleTable flagSchema)
    (table?_single.mpr ⟨rfl, rfl⟩) (fun q page _ hp => ?_) _ _ ?_ (by decide) (fun txn t hm => ?_) ⟨3⟩ ?_
    (by decide +kernel) _ _ hscans⟩
  · obtain ⟨_, image, _, himage, _⟩ := (onFile_eq hfresh.toLayout q).mp hp
    rw [hfresh.image?] at himage
    cases himage
  · simp only [rowCommitted, othersBetween, List.cons_append, List.nil_append, List.forall_mem_cons]
    exact ⟨trivial, trivial, trivial, trivial, trivial, List.forall_mem_nil _⟩
  · simp only [rowCommitted, List.mem_cons, List.not_mem_nil, or_false, reduceCtorEq, Action.ask.injEq] at hm
    cases hm
    exact Tuple.fits_of_ofValues (show Tuple.ofValues flagSchema [.boolean true] = .ok (flagRow true) from rfl)
  · simp only [othersBetween, List.forall_mem_cons]
    exact ⟨by decide, by decide, by decide, List.forall_mem_nil _⟩

/-- A store with room for one page in memory and two tables, over files of their own or the same one. -/
def beside (schema : Schema) (sharing : Option TableId) : Engine :=
  (((Session.new 4 ⟨1, 2, none⟩ .memory).addTable ⟨0⟩ "rows" schema none []).addTable ⟨1⟩ "others" schema sharing
    []).engine

def letterSchema : Schema := ⟨[⟨"letter", .char 1⟩]⟩

def letterRow (c : Char) : Tuple := ⟨letterSchema, [.text (String.ofList [c])], none⟩

/-- The row that is read for a byte that is not UTF-8. -/
def strayRow : Tuple := letterRow (Char.ofNat 0xFFFD)

def filed (t : Tuple) : List Action := [.ask (.insert ⟨2⟩ ⟨0⟩ t), .ask (.commit ⟨2⟩ .asListed)]

def filedBeside (t : Tuple) : List Action :=
  [.ask (.insert ⟨3⟩ ⟨1⟩ t), .ask (.commit ⟨3⟩ .asListed), .ask (.flushAll .asListed)]

def withBytes (e : Engine) (bytes : Bytes) : Engine := { e with disk := e.disk.setContents 0 ⟨[.bytes bytes]⟩ }

/-- Nothing keeps rows from coming into a table that had no pages at the first scan, or from changing on a file through
another table over it. A text that has grown past its column, as the one read for a byte that is not UTF-8, is not
written to the file as it is in memory, whether it was on file from the start or was inserted. -/
theorem repeated_scan_differs :
    (¬ ∀ first second, flagStore.ScansTwice (singleTable flagSchema) ⟨1⟩ (filed (flagRow true)) first second →
      second = first) ∧
    (¬ ∀ first second, ((beside flagSchema (some ⟨0⟩)).acts
        (filed (flagRow true) ++ [.ask (.flushAll .asListed)])).ScansTwice (singleTable flagSchema) ⟨1⟩
          (filedBeside (flagRow true)) first second → second = first) ∧
    (¬ ∀ first second, (((beside letterSchema none).withBytes [1, 0xFF, 0, 0]).acts
        (filed (letterRow 'a'))).ScansTwice (singleTable letterSchema) ⟨1⟩
          (.ask (.flushAll .asListed) :: filedBeside (letterRow 'a')) first second → second = first) ∧
    (Tuple.decode letterSchema [0xFF] = some strayRow ∧
      ¬ ∀ first second, ((beside letterSchema none).acts (filed strayRow)).ScansTwice (singleTable letterSchema) ⟨1⟩
        (.ask (.flushAll .asListed) :: filedBeside (letterRow 'a')) first second → second = first) := by
  refine ⟨fun h => ?_, fun h => ?_, fun h => ?_, by decide +kernel, fun h => ?_⟩
  · refine absurd (h [] [(some ⟨⟨⟨0⟩, 0⟩, 0⟩, [1])] ⟨_, _, _, _, .of_end rfl, .of_row rfl (.of_end rfl), rfl, ?_⟩) nofun
    decide
  · refine absurd (h [(some ⟨⟨⟨0⟩, 0⟩, 0⟩, [1])] [(some ⟨⟨⟨0⟩, 0⟩, 0⟩, [1]), (some ⟨⟨⟨0⟩, 0⟩, 1⟩, [1])]
      ⟨_, _, _, _, .of_row rfl (.of_end rfl), .of_row rfl (.of_row rfl (.of_end rfl)), ?_, ?_⟩) (by decide) <;> decide
  · refine absurd (h [(some ⟨⟨⟨0⟩, 0⟩, 0⟩, []), (some ⟨⟨⟨0⟩, 0⟩, 1⟩, [97])]
      [(some ⟨⟨⟨0⟩, 0⟩, 0⟩, [97]), (some ⟨⟨⟨0⟩, 0⟩, 1⟩, [0])]
      ⟨_, _, _, _, .of_row rfl (.of_row rfl (.of_end rfl)), .of_row rfl (.of_row rfl (.of_end rfl)), ?_, ?_⟩)
      (by decide) <;> decide +kernel
  · refine absurd (h [(some ⟨⟨⟨0⟩, 0⟩, 0⟩, [])] [(some ⟨⟨⟨0⟩, 0⟩, 0⟩, [0])]
      ⟨_, _, _, _, .of_row rfl (.of_end rfl), .of_row rfl (.of_end rfl), ?_, ?_⟩) (by decide) <;> decide +kernel

end Engine

end RowStore
