import Mathlib.Data.Prod.Lex
import Mathlib.Order.WellFounded
import RowStore.Proofs.DeletedRows
import RowStore.Proofs.Views

/-!
# Scans among other moves

A scan is pulled at again and again, and anything may happen between two pulls. A pull asks for pages one after the
other until one has rows, and whether a fetch succeeds or fails, the next page that is asked for is the one after
those that have been got. So the rows that are given out are those of the pages in their order, each page as it was
when it was got, and a failed pull neither skips nor repeats any. The scan asks for no page beyond those that the
table had when it was opened, and every pull that does not fail leaves less to do.
-/

namespace RowStore

open Engine (single flagSchema flagRow singleTable)

/-- A fetch to read a page: the state that it is made in, and what is asked for. -/
structure Fetch where
  before : Engine
  txn : TxnId
  page : PageId

namespace Fetch

def result (f : Fetch) : Engine.Result FrameId := f.before.getPage f.txn f.page .readOnly

def page? (f : Fetch) : Option Page :=
  match f.result with
  | (e, .ok frame) => e.page? frame
  | (_, .error _) => none

def got (fetches : List Fetch) : List Page := fetches.filterMap page?

/-- The fetches lead from one state to another, and nothing else happens on the way. -/
def Lead : Engine → List Fetch → Engine → Prop
  | e, [], e' => e' = e
  | e, f :: rest, e' => f.before = e ∧ Lead f.result.1 rest e'

/-- The last fetch fails, and the pages that are got before have no rows. -/
def StopAt (fetches : List Fetch) (err : StorageError) : Prop :=
  ∃ passed last, fetches = passed ++ [last] ∧ last.result.2 = .error err ∧
    ∀ f ∈ passed, ∃ page, f.page? = some page ∧ page.tuples = []

theorem StopAt.cons {f : Fetch} {rest : List Fetch} {err : StorageError} {page : Page} (h : StopAt rest err)
    (hf : f.page? = some page) (hrows : page.tuples = []) : StopAt (f :: rest) err := by
  obtain ⟨passed, last, rfl, hlast, hpassed⟩ := h
  refine ⟨f :: passed, last, rfl, hlast, fun g hg => ?_⟩
  rcases List.mem_cons.mp hg with rfl | hg
  · exact ⟨page, hf, hrows⟩
  · exact hpassed g hg

theorem got_append (l₁ l₂ : List Fetch) : got (l₁ ++ l₂) = got l₁ ++ got l₂ := List.filterMap_append

/-- A fetch from well-shaped frames fails or gets the page that is asked for; the rows that are read are the rows of
that page. -/
theorem cases_of_wellShaped {f : Fetch} (h : f.before.WellShaped) :
    f.result.1.WellShaped ∧
      ((∃ err, f.result.2 = .error err ∧ f.page? = none ∧
          f.before.rowsOf f.txn f.page = (f.result.1, .error err)) ∨
        ∃ page, f.page? = some page ∧ page.id = f.page ∧ page.Shaped ∧
          f.before.rowsOf f.txn f.page = (f.result.1, .ok page.tuples)) := by
  have hafter := h.along (Engine.path_getPage f.before f.txn f.page .readOnly)
  obtain ⟨_, _, hfound⟩ := Engine.getPage_found h.sane f.txn f.page .readOnly
  refine ⟨hafter, ?_⟩
  unfold page? result Engine.rowsOf
  generalize f.before.getPage f.txn f.page .readOnly = outcome at hafter hfound ⊢
  obtain ⟨e, result⟩ := outcome
  cases result with
  | error err => exact .inl ⟨err, rfl, rfl, rfl⟩
  | ok frame =>
    obtain ⟨page, hpage, hframe⟩ := hfound frame rfl
    change e.page? frame = some page at hframe
    obtain ⟨hshaped, hid⟩ := h.shaped_of_found hpage
    refine .inr ⟨page, hframe, hid, hshaped, ?_⟩
    simp only [hframe, Option.elim_some]

end Fetch

namespace Engine

def fillFetches (txn : TxnId) (table : TableId) : (left : Nat) → Engine → Cursor → List Fetch
  | 0, _, _ => []
  | left + 1, e, c =>
    if c.buffered.isEmpty then
      ⟨e, txn, ⟨table, c.nextPage⟩⟩ ::
        match e.rowsOf txn ⟨table, c.nextPage⟩ with
        | (_, .error _) => []
        | (e, .ok rows) => fillFetches txn table left e ⟨c.nextPage + 1, c.pageCount, rows⟩
    else []

end Engine

/-- How far a scan has come: the fetches so far, the rows given out so far and where it stands now. -/
structure Progress (txn : TxnId) (table : TableId) (fetches : List Fetch) (rows : List Tuple) (c : Cursor) : Prop where
  ids : (Fetch.got fetches).map Page.id = (List.range c.nextPage).map fun n => ⟨table, n⟩
  within : c.nextPage ≤ c.pageCount
  given : rows ++ c.buffered = (Fetch.got fetches).flatMap Page.tuples
  shaped : ∀ page ∈ Fetch.got fetches, page.Shaped
  asked : ∀ earlier f later, fetches = earlier ++ f :: later →
    f.txn = txn ∧ f.page = ⟨table, (Fetch.got earlier).length⟩ ∧ (Fetch.got earlier).length < c.pageCount ∧
      (f.page?.isSome ∨ ∃ err, f.result.2 = .error err)

namespace Progress

variable {txn : TxnId} {table : TableId} {fetches : List Fetch} {rows : List Tuple} {c : Cursor}

theorem start (count : Nat) : Progress txn table [] [] ⟨0, count, []⟩ where
  ids := rfl
  within := Nat.zero_le count
  given := rfl
  shaped := nofun
  asked earlier f later h := by cases earlier <;> cases h

theorem length_got (h : Progress txn table fetches rows c) : (Fetch.got fetches).length = c.nextPage := by
  have hlength := congrArg List.length h.ids
  rwa [List.length_map, List.length_map, List.length_range] at hlength

/-- The next fetch asks for the page that the scan stands before. -/
theorem asked_snoc (h : Progress txn table fetches rows c) (hlt : c.nextPage < c.pageCount) {f : Fetch}
    (htxn : f.txn = txn) (hpage : f.page = ⟨table, c.nextPage⟩)
    (hf : f.page?.isSome ∨ ∃ err, f.result.2 = .error err) :
    ∀ earlier g later, fetches ++ [f] = earlier ++ g :: later →
      g.txn = txn ∧ g.page = ⟨table, (Fetch.got earlier).length⟩ ∧ (Fetch.got earlier).length < c.pageCount ∧
        (g.page?.isSome ∨ ∃ err, g.result.2 = .error err) := by
  intro earlier g later hsplit
  rcases later.eq_nil_or_concat with rfl | ⟨later, last, rfl⟩
  · obtain ⟨rfl, hlast⟩ := List.append_inj' hsplit rfl
    cases hlast
    rw [h.length_got]
    exact ⟨htxn, hpage, hlt, hf⟩
  · rw [List.concat_eq_append, ← List.cons_append, ← List.append_assoc] at hsplit
    exact h.asked earlier g later (List.append_inj' hsplit rfl).1

/-- After a failed fetch the scan stands where it stood. -/
theorem failed (h : Progress txn table fetches rows c) (hlt : c.nextPage < c.pageCount) {f : Fetch} {err : StorageError}
    (htxn : f.txn = txn) (hpage : f.page = ⟨table, c.nextPage⟩) (hnone : f.page? = none)
    (herr : f.result.2 = .error err) : Progress txn table (fetches ++ [f]) rows c := by
  have hgot : Fetch.got (fetches ++ [f]) = Fetch.got fetches := by
    rw [Fetch.got_append]
    unfold Fetch.got
    rw [List.filterMap_cons_none hnone, List.filterMap_nil, List.append_nil]
  refine ⟨?_, h.within, ?_, ?_, h.asked_snoc hlt htxn hpage (.inr ⟨err, herr⟩)⟩
  · rw [hgot, h.ids]
  · rw [hgot, h.given]
  · rw [hgot]
    exact h.shaped

/-- After a fetch that succeeds the scan has the rows of the page, and stands before the next one. -/
theorem fetched (h : Progress txn table fetches rows c) (hlt : c.nextPage < c.pageCount) (hempty : c.buffered = [])
    {f : Fetch} {page : Page} (htxn : f.txn = txn) (hpage : f.page = ⟨table, c.nextPage⟩) (hgot : f.page? = some page)
    (hid : page.id = f.page) (hshaped : page.Shaped) :
    Progress txn table (fetches ++ [f]) rows ⟨c.nextPage + 1, c.pageCount, page.tuples⟩ := by
  have hpages : Fetch.got (fetches ++ [f]) = Fetch.got fetches ++ [page] := by
    rw [Fetch.got_append]
    unfold Fetch.got
    rw [List.filterMap_cons_some hgot, List.filterMap_nil]
  have hrows := h.given
  rw [hempty, List.append_nil] at hrows
  refine ⟨?_, hlt, ?_, ?_, h.asked_snoc hlt htxn hpage (.inl (by rw [hgot]; rfl))⟩
  · rw [hpages, List.map_append, h.ids, List.range_succ, List.map_append, List.map_singleton, hid, hpage]
    rfl
  · rw [hpages, List.flatMap_append, List.flatMap_singleton, hrows]
  · rw [hpages]
    intro p hp
    rcases List.mem_append.mp hp with hp | hp
    · exact h.shaped p hp
    · rw [List.mem_singleton.mp hp]
      exact hshaped

theorem ascending (h : Progress txn table fetches rows c) :
    ((Fetch.got fetches).flatMap Page.tuples).Pairwise Tuple.Before := by
  have hbetween : (Fetch.got fetches).Pairwise fun p q => p.id.number < q.id.number := by
    have hids : ((Fetch.got fetches).map fun p => p.id.number) = List.range c.nextPage := by
      have hnumbers := congrArg (List.map PageId.number) h.ids
      rw [List.map_map, List.map_map] at hnumbers
      exact hnumbers.trans (List.map_id _)
    have hsorted : ((Fetch.got fetches).map fun p => p.id.number).Pairwise (· < ·) := by
      rw [hids]
      exact List.pairwise_lt_range
    exact List.pairwise_map.mp hsorted
  rw [List.pairwise_flatMap]
  refine ⟨fun page hp => (h.shaped page hp).pairwise_tuples, ?_⟩
  refine hbetween.imp_of_mem fun {p q} hp hq hlt t ht u hu => ?_
  obtain ⟨i, hi⟩ := Page.mem_tuples.mp ht
  obtain ⟨j, hj⟩ := Page.mem_tuples.mp hu
  exact ⟨_, _, (h.shaped p hp).record_of_tuple? hi, (h.shaped q hq).record_of_tuple? hj, .inl hlt⟩

end Progress

/-! ## Filling the buffer -/

/-- What a scan has still to do: the pages to go, and for as many pages the rows in the buffer. -/
def Cursor.left (c : Cursor) : ℕ ×ₗ ℕ := toLex (c.pageCount - c.nextPage, c.buffered.length)

namespace Engine

variable {e : Engine} {txn : TxnId} {table : TableId} {fetches : List Fetch} {rows : List Tuple} {c : Cursor}

/-- A scan with rows in its buffer fetches nothing. -/
theorem fill_of_buffered (txn : TxnId) (table : TableId) (left : Nat) (e : Engine) (h : c.buffered ≠ []) :
    fill txn table left e c = (e, c, .ok ()) ∧ fillFetches txn table left e c = [] := by
  have hfull : c.buffered.isEmpty = false := List.isEmpty_eq_false_iff.mpr h
  cases left with
  | zero => exact ⟨rfl, rfl⟩
  | succ left =>
    unfold fill fillFetches
    rw [hfull]
    exact ⟨rfl, rfl⟩

/-- Where a scan stands once it has filled its buffer, and the fetches by which it did. -/
structure Refilled (e : Engine) (txn : TxnId) (table : TableId) (fetches : List Fetch) (rows : List Tuple) (c : Cursor)
    (new : List Fetch) (out : Engine × Cursor × Except StorageError Unit) : Prop where
  wellShaped : out.1.WellShaped
  lead : Fetch.Lead e new out.1
  pageCount : out.2.1.pageCount = c.pageCount
  progress : Progress txn table (fetches ++ new) rows out.2.1
  failed : ∀ err, out.2.2 = .error err → out.2.1.buffered = [] ∧ Fetch.StopAt new err
  filled : out.2.2 = .ok () → out.2.1.buffered = [] → out.2.1.nextPage = c.pageCount

theorem refilled_fill {left : Nat} (hw : e.WellShaped) (h : Progress txn table fetches rows c)
    (hleft : c.nextPage + left = c.pageCount) :
    e.Refilled txn table fetches rows c (fillFetches txn table left e c) (fill txn table left e c) := by
  induction left generalizing e c fetches with
  | zero =>
    refine ⟨hw, rfl, rfl, ?_, nofun, fun _ _ => hleft⟩
    unfold fillFetches
    rwa [List.append_nil]
  | succ left ih =>
    by_cases hempty : c.buffered = []
    · have hlt : c.nextPage < c.pageCount := by omega
      unfold fillFetches fill
      simp only [hempty, List.isEmpty_nil, if_true]
      generalize hf : (⟨e, txn, ⟨table, c.nextPage⟩⟩ : Fetch) = f
      have hbefore : f.before = e := by rw [← hf]
      have htxn : f.txn = txn := by rw [← hf]
      have hpage : f.page = ⟨table, c.nextPage⟩ := by rw [← hf]
      rw [← hbefore] at hw
      obtain ⟨hafter, ⟨err, herr, hnone, hrun⟩ | ⟨page, hgot, hid, hshaped, hrun⟩⟩ := Fetch.cases_of_wellShaped hw
      · rw [hbefore, htxn, hpage] at hrun
        simp only [hrun]
        refine ⟨hafter, ⟨hbefore, rfl⟩, rfl, h.failed hlt htxn hpage hnone herr, fun _ he => ?_, nofun⟩
        cases he
        exact ⟨hempty, [], f, rfl, herr, nofun⟩
      · rw [hbefore, htxn, hpage] at hrun
        simp only [hrun]
        have hnext := h.fetched hlt hempty htxn hpage hgot hid hshaped
        obtain ⟨hw', hlead, hcount, hprogress, hfailed, hfilled⟩ :=
          ih hafter hnext (by change c.nextPage + 1 + left = c.pageCount; omega)
        refine ⟨hw', ⟨hbefore, hlead⟩, hcount, ?_, fun err herr => ?_, hfilled⟩
        · rwa [List.append_assoc] at hprogress
        · obtain ⟨hstill, hstop⟩ := hfailed err herr
          refine ⟨hstill, hstop.cons hgot ?_⟩
          -- Had the page rows, they would be in the buffer and nothing else would have been asked for.
          by_contra hrows
          rw [(fill_of_buffered txn table left _ (c := ⟨c.nextPage + 1, c.pageCount, page.tuples⟩) hrows).1] at herr
          cases herr
    · obtain ⟨hfill, hnone⟩ := fill_of_buffered txn table (left + 1) e hempty
      rw [hfill, hnone]
      refine ⟨hw, rfl, rfl, ?_, nofun, fun _ hnil => absurd hnil hempty⟩
      rwa [List.append_nil]

/-- Filling the buffer leaves no more to do. -/
theorem left_fill (txn : TxnId) (table : TableId) (e : Engine) {left : Nat} (hleft : left ≤ c.pageCount - c.nextPage) :
    (fill txn table left e c).2.1.left ≤ c.left := by
  induction left generalizing e c with
  | zero => exact le_refl _
  | succ left ih =>
    by_cases hempty : c.buffered = []
    · unfold fill
      simp only [hempty, List.isEmpty_nil, if_true]
      cases e.rowsOf txn ⟨table, c.nextPage⟩ with
      | mk e₁ result =>
        cases result with
        | error err => exact le_refl _
        | ok rows =>
          have hfewer : (⟨c.nextPage + 1, c.pageCount, rows⟩ : Cursor).left < c.left :=
            Prod.Lex.toLex_lt_toLex.mpr (.inl (by dsimp only; omega))
          exact (ih e₁ (by dsimp only; omega)).trans hfewer.le
    · rw [(fill_of_buffered txn table _ e hempty).1]

end Engine

/-! ## Pulls -/

structure ScanState where
  engine : Engine
  scan : Scan

/-- What is done while a scan is open: it is pulled at, or something else is done. -/
inductive ScanStep where
  | pull
  | other (m : Move)

namespace ScanState

def answer (st : ScanState) : Except StorageError (Option Tuple) := (st.engine.nextTuple st.scan).2.2

def row? (st : ScanState) : Option Tuple :=
  match st.answer with
  | .ok row => row
  | .error _ => none

def pulled (st : ScanState) : ScanState := ⟨(st.engine.nextTuple st.scan).1, (st.engine.nextTuple st.scan).2.1⟩

def fetches (st : ScanState) : List Fetch :=
  st.scan.cursor.elim [] fun c =>
    Engine.fillFetches st.scan.txn st.scan.table.id (c.pageCount - c.nextPage) st.engine c

def step (st : ScanState) : ScanStep → ScanState
  | .pull => st.pulled
  | .other m => ⟨st.engine.move m, st.scan⟩

def steps (st : ScanState) (l : List ScanStep) : ScanState := l.foldl step st

def pulls (st : ScanState) : List ScanStep → List ScanState
  | [] => []
  | .pull :: rest => st :: st.pulled.pulls rest
  | .other m :: rest => (st.step (.other m)).pulls rest

def fetchesOf (pulls : List ScanState) : List Fetch := pulls.flatMap fetches

def rowsOf (pulls : List ScanState) : List Tuple := pulls.filterMap row?

end ScanState

/-- What the pulls at a scan do, from when it is opened over a table with `count` pages. -/
structure Resumes (s : Scan) (count : Nat) (pulls : List ScanState) : Prop where
  ascending : (ScanState.rowsOf pulls).Pairwise Tuple.Before
  /-- The pages are got in order, each once, and none after the last that the table had. -/
  pages : ∃ n ≤ count, (Fetch.got (ScanState.fetchesOf pulls)).map Page.id = (List.range n).map fun k => ⟨s.table.id, k⟩
  /-- The rows are those of the pages as they were got, from the first on. -/
  rows : ScanState.rowsOf pulls <+: (Fetch.got (ScanState.fetchesOf pulls)).flatMap Page.tuples
  asked : ∀ earlier f later, ScanState.fetchesOf pulls = earlier ++ f :: later →
    f.txn = s.txn ∧ f.page = ⟨s.table.id, (Fetch.got earlier).length⟩ ∧ (Fetch.got earlier).length < count ∧
      (f.page?.isSome ∨ ∃ err, f.result.2 = .error err)
  lead : ∀ st ∈ pulls, Fetch.Lead st.engine st.fetches st.pulled.engine
  /-- A pull fails for its last fetch, and has passed nothing but pages without rows by then. -/
  failed : ∀ st ∈ pulls, ∀ err, st.answer = .error err → Fetch.StopAt st.fetches err
  /-- When a pull finds no row, all pages have been got and all of their rows given out, and it stays so. -/
  ended : ∀ earlier st later, pulls = earlier ++ st :: later → st.answer = .ok none →
    (Fetch.got (ScanState.fetchesOf (earlier ++ [st]))).length = count ∧
      ScanState.rowsOf earlier = (Fetch.got (ScanState.fetchesOf (earlier ++ [st]))).flatMap Page.tuples ∧
      ∀ st' ∈ later, st'.answer = .ok none ∧ st'.fetches = [] ∧ st'.pulled = st'

/-- The scan `s` has come to `c` by the given fetches and rows. -/
structure ScanState.Standing (s : Scan) (count : Nat) (fetches : List Fetch) (rows : List Tuple) (c : Cursor)
    (st : ScanState) : Prop where
  wellShaped : st.engine.WellShaped
  scan : st.scan = { s with cursor := some c }
  pageCount : c.pageCount = count
  progress : Progress s.txn s.table.id fetches rows c

/-- A scan without rows in its buffer and without pages to go. -/
def ScanState.Exhausted (st : ScanState) : Prop :=
  ∃ c, st.scan.cursor = some c ∧ c.buffered = [] ∧ c.nextPage = c.pageCount

namespace ScanState

variable {s : Scan} {count : Nat} {fetched : List Fetch} {rows : List Tuple} {c : Cursor} {st : ScanState}

/-- A pull takes the scan on, by its fetches and by the row that it gives out if it does. -/
theorem Standing.pulled (h : st.Standing s count fetched rows c) :
    Fetch.Lead st.engine st.fetches st.pulled.engine ∧
      (∀ err, st.answer = .error err → Fetch.StopAt st.fetches err) ∧
      (st.answer = .ok none → st.pulled.Exhausted) ∧
      ∃ c', st.pulled.Standing s count (fetched ++ st.fetches) (rows ++ st.row?.toList) c' := by
  obtain ⟨engine, scan⟩ := st
  obtain ⟨hw, rfl, hcount, hprogress⟩ := h
  have hfilled := Engine.refilled_fill hw hprogress (Nat.add_sub_of_le hprogress.within)
  unfold row? answer ScanState.pulled fetches Engine.nextTuple
  simp only [Option.elim_some]
  generalize Engine.fillFetches s.txn s.table.id (c.pageCount - c.nextPage) engine c = new at hfilled ⊢
  generalize Engine.fill s.txn s.table.id (c.pageCount - c.nextPage) engine c = out at hfilled ⊢
  obtain ⟨e', ⟨next, stop, buffered⟩, result⟩ := out
  obtain ⟨hw', hlead, hcount', hprogress', hfailed, hdone⟩ := hfilled
  have hstop : stop = count := hcount'.trans hcount
  cases result with
  | error err =>
    refine ⟨hlead, fun _ he => ?_, nofun, _, hw', rfl, hstop, by rwa [Option.toList_none, List.append_nil]⟩
    cases he
    exact (hfailed err rfl).2
  | ok _ =>
    cases buffered with
    | nil =>
      refine ⟨hlead, nofun, fun _ => ⟨_, rfl, rfl, (hdone rfl rfl).trans hcount'.symm⟩, _, hw', rfl, hstop, ?_⟩
      rwa [Option.toList_none, List.append_nil]
    | cons t rest =>
      refine ⟨hlead, nofun, nofun, _, hw', rfl, hstop, hprogress'.ids, hprogress'.within, ?_, hprogress'.shaped,
        hprogress'.asked⟩
      rw [Option.toList_some, List.append_assoc, List.singleton_append]
      exact hprogress'.given

/-- What else is done leaves the scan where it is. -/
theorem Standing.other (h : st.Standing s count fetched rows c) {m : Move}
    (hm : ∀ f page, m = .change f page → page.Shaped) : (st.step (.other m)).Standing s count fetched rows c :=
  ⟨h.wellShaped.move hm, h.scan, h.pageCount, h.progress⟩

theorem Standing.steps {l : List ScanStep} (h : st.Standing s count fetched rows c)
    (hl : ∀ f page, .other (.change f page) ∈ l → page.Shaped) :
    ∃ c', (st.steps l).Standing s count (fetched ++ fetchesOf (st.pulls l)) (rows ++ rowsOf (st.pulls l)) c' := by
  induction l generalizing st fetched rows c with
  | nil =>
    refine ⟨c, ?_⟩
    change st.Standing s count (fetched ++ []) (rows ++ []) c
    rwa [List.append_nil, List.append_nil]
  | cons a l ih =>
    have hrest : ∀ f page, .other (.change f page) ∈ l → page.Shaped := fun f page hm =>
      hl f page (List.mem_cons_of_mem a hm)
    cases a with
    | pull =>
      obtain ⟨_, _, _, c', hpulled⟩ := h.pulled
      obtain ⟨last, hlast⟩ := ih hpulled hrest
      refine ⟨last, ?_⟩
      have hrow : st.row?.toList ++ rowsOf (st.pulled.pulls l) = rowsOf (st.pulls (.pull :: l)) := by
        unfold rowsOf
        rw [pulls, List.filterMap_cons]
        cases st.row? <;> rfl
      rwa [List.append_assoc, List.append_assoc, hrow] at hlast
    | other m =>
      exact ih (h.other fun f page hm => hl f page (by rw [hm]; exact List.mem_cons_self)) hrest

/-- A pull at an exhausted scan finds nothing and does nothing. -/
theorem Exhausted.pulled (h : st.Exhausted) : st.answer = .ok none ∧ st.fetches = [] ∧ st.pulled = st := by
  obtain ⟨engine, table, txn, cursor⟩ := st
  obtain ⟨⟨next, stop, buffered⟩, rfl, rfl, hend⟩ := h
  obtain rfl : next = stop := hend
  unfold answer fetches ScanState.pulled Engine.nextTuple
  simp only [Option.elim_some, Nat.sub_self]
  exact ⟨rfl, rfl, rfl⟩

theorem Exhausted.pulls (h : st.Exhausted) (l : List ScanStep) :
    ∀ st' ∈ st.pulls l, st'.answer = .ok none ∧ st'.fetches = [] ∧ st'.pulled = st' := by
  induction l generalizing st with
  | nil => nofun
  | cons a l ih =>
    cases a with
    | pull =>
      intro st' hmem
      rcases List.mem_cons.mp hmem with rfl | hmem
      · exact h.pulled
      · rw [h.pulled.2.2] at hmem
        exact ih h st' hmem
    | other m =>
      have hother : (st.step (.other m)).Exhausted := h
      exact ih hother

/-- Every pull of a run is made in the state that the run has come to. -/
theorem pulls_eq_append {l : List ScanStep} {earlier later : List ScanState} {st' : ScanState}
    (h : st.pulls l = earlier ++ st' :: later) :
    ∃ before after, l = before ++ .pull :: after ∧ st.pulls before = earlier ∧ st' = st.steps before ∧
      later = st'.pulled.pulls after := by
  induction l generalizing st earlier with
  | nil => cases earlier <;> cases h
  | cons a l ih =>
    cases a with
    | pull =>
      cases earlier with
      | nil =>
        cases h
        exact ⟨[], l, rfl, rfl, rfl, rfl⟩
      | cons first earlier =>
        obtain ⟨rfl, hrest⟩ := List.cons.inj h
        obtain ⟨before, after, rfl, rfl, rfl, rfl⟩ := ih hrest
        exact ⟨.pull :: before, after, rfl, rfl, rfl, rfl⟩
    | other m =>
      have hother : (st.step (.other m)).pulls l = earlier ++ st' :: later := h
      obtain ⟨before, after, rfl, rfl, rfl, rfl⟩ := ih hother
      exact ⟨.other m :: before, after, rfl, rfl, rfl, rfl⟩

theorem Standing.resumes {l : List ScanStep} (h : st.Standing s count [] [] c)
    (hl : ∀ f page, .other (.change f page) ∈ l → page.Shaped) : Resumes s count (st.pulls l) := by
  obtain ⟨last, hlast⟩ := h.steps hl
  rw [List.nil_append, List.nil_append] at hlast
  have hprogress := hlast.progress
  -- Where the scan stands at a pull of the run.
  have hpull : ∀ earlier st' later, st.pulls l = earlier ++ st' :: later →
      ∃ c after, st'.Standing s count (fetchesOf earlier) (rowsOf earlier) c ∧ later = st'.pulled.pulls after := by
    intro earlier st' later hsplit
    obtain ⟨before, after, rfl, rfl, rfl, rfl⟩ := pulls_eq_append hsplit
    obtain ⟨c', hstanding⟩ := h.steps fun f page hm => hl f page (List.mem_append_left _ hm)
    exact ⟨c', after, hstanding, rfl⟩
  have hrows : rowsOf (st.pulls l) <+: (Fetch.got (fetchesOf (st.pulls l))).flatMap Page.tuples :=
    ⟨last.buffered, hprogress.given⟩
  refine ⟨hprogress.ascending.sublist hrows.sublist, ⟨last.nextPage, ?_, hprogress.ids⟩, hrows, ?_, ?_, ?_, ?_⟩
  · rw [← hlast.pageCount]
    exact hprogress.within
  · rw [← hlast.pageCount]
    exact hprogress.asked
  · intro st' hmem
    obtain ⟨earlier, later, hsplit⟩ := List.append_of_mem hmem
    obtain ⟨_, _, hstanding, _⟩ := hpull earlier st' later hsplit
    exact hstanding.pulled.1
  · intro st' hmem
    obtain ⟨earlier, later, hsplit⟩ := List.append_of_mem hmem
    obtain ⟨_, _, hstanding, _⟩ := hpull earlier st' later hsplit
    exact hstanding.pulled.2.1
  · intro earlier st' later hsplit hnone
    obtain ⟨_, after, hstanding, rfl⟩ := hpull earlier st' later hsplit
    obtain ⟨_, _, hexhausted, c', hpulled⟩ := hstanding.pulled
    have hfetches : fetchesOf (earlier ++ [st']) = fetchesOf earlier ++ st'.fetches := by
      unfold fetchesOf
      rw [List.flatMap_append, List.flatMap_singleton]
    have hrow : st'.row? = none := by
      unfold row?
      rw [hnone]
    obtain ⟨cursor, hcursor, hempty, hend⟩ := hexhausted hnone
    rw [hpulled.scan] at hcursor
    cases hcursor
    rw [hfetches]
    refine ⟨?_, ?_, (hexhausted hnone).pulls after⟩
    · rw [hpulled.progress.length_got, hend, hpulled.pageCount]
    · have hgiven := hpulled.progress.given
      rwa [hrow, hempty, Option.toList_none, List.append_nil, List.append_nil] at hgiven

/-! ## Coming to an end -/

def left (st : ScanState) : ℕ ×ₗ ℕ := st.scan.cursor.elim (toLex (0, 0)) Cursor.left

/-- A pull leaves no more to do than there was, and less if it gives out a row. -/
theorem left_pulled (st : ScanState) :
    st.pulled.left ≤ st.left ∧ ∀ t, st.answer = .ok (some t) → st.pulled.left < st.left := by
  obtain ⟨engine, ⟨table, txn, cursor⟩⟩ := st
  cases cursor with
  | none => exact ⟨le_refl _, nofun⟩
  | some c =>
    have hfill := Engine.left_fill txn table.id engine (le_refl (c.pageCount - c.nextPage))
    unfold answer ScanState.pulled left Engine.nextTuple
    simp only [Option.elim_some]
    generalize Engine.fill txn table.id (c.pageCount - c.nextPage) engine c = out at hfill ⊢
    obtain ⟨e', ⟨next, stop, buffered⟩, result⟩ := out
    cases result with
    | error err => exact ⟨hfill, nofun⟩
    | ok _ =>
      cases buffered with
      | nil => exact ⟨hfill, nofun⟩
      | cons t rest =>
        have hfewer : (⟨next, stop, rest⟩ : Cursor).left < (⟨next, stop, t :: rest⟩ : Cursor).left :=
          Prod.Lex.toLex_lt_toLex.mpr (.inr ⟨rfl, Nat.lt_succ_self _⟩)
        exact ⟨(hfewer.trans_le hfill).le, fun _ _ => hfewer.trans_le hfill⟩

theorem left_step (st : ScanState) (a : ScanStep) : (st.step a).left ≤ st.left := by
  cases a with
  | pull => exact (left_pulled st).1
  | other m => exact le_refl _

/-- In a run without end the scan comes to its end, or from some point on all pulls fail. -/
theorem ends (st : ScanState) (run : ℕ → ScanStep) :
    (∃ i, run i = .pull ∧ (st.steps ((List.range i).map run)).answer = .ok none) ∨
      ∃ k, ∀ i ≥ k, run i = .pull → ∃ err, (st.steps ((List.range i).map run)).answer = .error err := by
  have hsucc : ∀ i, st.steps ((List.range (i + 1)).map run) = (st.steps ((List.range i).map run)).step (run i) := by
    intro i
    unfold steps
    rw [List.range_succ, List.map_append, List.foldl_append]
    rfl
  have hanti : Antitone fun i => (st.steps ((List.range i).map run)).left := antitone_nat_of_succ_le fun i => by
    rw [hsucc]
    exact left_step _ _
  -- From where the least is left to do no pull gives out a row.
  obtain ⟨_, ⟨k, rfl⟩, hleast⟩ := wellFounded_lt.has_min (Set.range fun i => (st.steps ((List.range i).map run)).left)
    (Set.range_nonempty _)
  by_contra hnever
  obtain ⟨hnone, hfailing⟩ := not_or.mp hnever
  refine hfailing ⟨k, fun i hi hpull => ?_⟩
  cases hanswer : (st.steps ((List.range i).map run)).answer with
  | error err => exact ⟨err, rfl⟩
  | ok row =>
    cases row with
    | none => exact absurd ⟨i, hpull, hanswer⟩ hnone
    | some t =>
      have hless := (left_pulled _).2 t hanswer
      refine absurd (hless.trans_le (hanti hi)) (hleast _ ⟨i + 1, ?_⟩)
      show (st.steps ((List.range (i + 1)).map run)).left = _
      rw [hsucc, hpull]
      rfl

end ScanState

/-- A scan that is opened or put back to the start in a store that can be reached, whatever is done between the pulls
and however many of them fail, gives out the rows of the pages that the table has then in order, each page as it is at
its only successful fetch. After a failure it goes on with the page that it could not get. It finds no row exactly
once all these pages have been got and all their rows given out, and does nothing after that; and it comes there,
unless from some point on all pulls fail. Whoever has a frame to itself may change the page in it at will, as long as
header and slots still agree. -/
theorem scan_resumes (e : Engine) (config : PoolConfig) (before : List Move)
    (hbefore : ∀ f page, .change f page ∈ before → page.Shaped) (s : Scan) :
    let start := Engine.moves { e with pool := Pool.new config.capacity config.k } before
    let opened : ScanState := ⟨start, s.openAt start⟩
    (∀ l : List ScanStep, (∀ f page, .other (.change f page) ∈ l → page.Shaped) →
      Resumes s (start.disk.pageCount start.pageSize s.table) (opened.pulls l)) ∧
    ∀ run : ℕ → ScanStep,
      (∃ i, run i = .pull ∧ (opened.steps ((List.range i).map run)).answer = .ok none) ∨
        ∃ k, ∀ i ≥ k, run i = .pull → ∃ err, (opened.steps ((List.range i).map run)).answer = .error err := by
  intro start opened
  have hstart : start.WellShaped := (Engine.WellShaped.of_new rfl).moves hbefore
  have hopened : opened.Standing s (start.disk.pageCount start.pageSize s.table) [] []
      ⟨0, start.disk.pageCount start.pageSize s.table, []⟩ := ⟨hstart, rfl, rfl, .start _⟩
  exact ⟨fun l hl => hopened.resumes hl, opened.ends⟩

/-- A table has two pages when its scan is opened. The second is not to be had at first, since somebody else may
change it. By the time that it is, it has been filled up, and there is a third page, which the scan passes over. -/
theorem scan_resumes_after_conflict :
    let insert (txn : Nat) : Move := .act (.ask (.insert ⟨txn⟩ ⟨0⟩ (flagRow true)))
    let commit (txn : Nat) : Move := .act (.ask (.commit ⟨txn⟩ .asListed))
    let start := (single 4 ⟨3, 2, none⟩ flagSchema).moves [insert 1, insert 1, insert 1, insert 1, commit 1]
    let s := Scan.new (singleTable flagSchema) ⟨3⟩
    let pulls := ScanState.pulls ⟨start, s.openAt start⟩
      [.pull, .other (.act (.ask (.get ⟨2⟩ ⟨⟨0⟩, 1⟩ .readWrite))), .pull, .pull, .pull, .other (commit 2),
        .other (insert 3), .other (insert 3), .other (insert 3), .pull, .pull, .pull, .pull, .pull]
    let row (page slot : Nat) : Option (Option RecordId) := some (some ⟨⟨⟨0⟩, page⟩, slot⟩)
    Resumes s 2 pulls ∧
      (pulls.map fun st => st.answer.toOption.map fun row => row.bind Tuple.record) =
        [row 0 0, row 0 1, row 0 2, none, row 1 0, row 1 1, row 1 2, some none, some none] ∧
      (ScanState.fetchesOf pulls).map (·.page.number) = [0, 1, 1] := by
  intro insert commit start s pulls row
  refine ⟨?_, by decide +kernel, by decide +kernel⟩
  have hbefore : ∀ f page, Move.change f page ∈ [insert 1, insert 1, insert 1, insert 1, commit 1] → page.Shaped := by
    simp [insert, commit]
  have hcount : start.disk.pageCount start.pageSize s.table = 2 := by decide +kernel
  have hresumes := (scan_resumes (single 4 ⟨3, 2, none⟩ flagSchema) ⟨3, 2, none⟩ _ hbefore s).1
  rw [← hcount]
  exact hresumes _ (by simp [insert, commit])

end RowStore
