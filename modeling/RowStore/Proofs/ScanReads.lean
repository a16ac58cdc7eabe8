import RowStore.Proofs.CoherentPages

/-!
# What a scan reads and locks

A scan that is pulled at until it is exhausted has read every page that the table had when the scan was opened, in order
and up to the last. It gives out what the pages show, and its transaction holds all of them afterwards.
-/

namespace RowStore.Engine

variable {e e' : Engine} {id : TableId} {txn : TxnId} {rows : List Tuple}

/-- Pulling at a scan until it is exhausted, with the rows that it gives out on the way. -/
inductive Drains : Engine → Scan → List Tuple → Engine → Prop
  | done {e e' : Engine} {s s' : Scan} (h : e.nextTuple s = (e', s', .ok none)) : Drains e s [] e'
  | row {e m e' : Engine} {s s' : Scan} {t : Tuple} {rows : List Tuple} (h : e.nextTuple s = (m, s', .ok (some t)))
      (rest : Drains m s' rows e') : Drains e s (t :: rows) e'

namespace Drains

theorem of_row {s : Scan} {t : Tuple} (h : (e.nextTuple s).2.2 = .ok (some t))
    (rest : Drains (e.nextTuple s).1 (e.nextTuple s).2.1 rows e') : Drains e s (t :: rows) e' :=
  .row (Prod.ext rfl (Prod.ext rfl h)) rest

theorem of_end {s : Scan} (h : (e.nextTuple s).2.2 = .ok none) : Drains e s [] (e.nextTuple s).1 :=
  .done (Prod.ext rfl (Prod.ext rfl h))

end Drains

theorem rowsAmong_succ_eq_ok {left n : Nat} : rowsAmong txn id (left + 1) n e = (e', .ok rows) ↔
    ∃ m first rest, e.rowsOf txn ⟨id, n⟩ = (m, .ok first) ∧ rowsAmong txn id left (n + 1) m = (e', .ok rest) ∧
      rows = first ++ rest := by
  rw [rowsAmong]
  cases e.rowsOf txn ⟨id, n⟩ with
  | mk m result =>
    cases result with
    | error err => simp
    | ok first =>
      cases hrest : rowsAmong txn id left (n + 1) m with
      | mk last result =>
        cases result with
        | error err => simp [hrest, Except.map]
        | ok rest => simp [hrest, Except.map, eq_comm]

/-- Filling the buffer reads pages of the table up to the first one with rows, and all that are left if none has any. -/
theorem rowsAmong_of_fill {left n stop : Nat} {c : Cursor} (h : fill txn id left e ⟨n, stop, []⟩ = (e', c, .ok ())) :
    ∃ read ≤ left, c.nextPage = n + read ∧ c.pageCount = stop ∧ (c.buffered = [] → read = left) ∧
      ∀ last rest, rowsAmong txn id (left - read) (n + read) e' = (last, .ok rest) →
        rowsAmong txn id left n e = (last, .ok (c.buffered ++ rest)) := by
  induction left generalizing e n with
  | zero =>
    cases h
    exact ⟨0, Nat.le_refl 0, rfl, rfl, fun _ => rfl, fun _ _ hlast => hlast⟩
  | succ left ih =>
    unfold fill at h
    simp only [List.isEmpty_nil, if_true] at h
    cases hread : e.rowsOf txn ⟨id, n⟩ with
    | mk m result =>
      rw [hread] at h
      cases result with
      | error err => cases h
      | ok first =>
        cases first with
        | nil =>
          obtain ⟨read, hle, hnext, hstop, hall, hrest⟩ := ih h
          refine ⟨read + 1, Nat.succ_le_succ hle, by rw [hnext, Nat.add_right_comm]; rfl, hstop,
            fun hnil => congrArg (· + 1) (hall hnil), fun last rest hlast => ?_⟩
          rw [Nat.add_sub_add_right, ← Nat.add_assoc, Nat.add_right_comm] at hlast
          exact rowsAmong_succ_eq_ok.mpr ⟨m, [], _, hread, hrest last rest hlast, rfl⟩
        | cons t first =>
          have hfull : fill txn id left m ⟨n + 1, stop, t :: first⟩ = (m, ⟨n + 1, stop, t :: first⟩, .ok ()) := by
            cases left <;> rfl
          cases hfull.symm.trans h
          refine ⟨1, Nat.le_add_left 1 left, rfl, rfl, nofun, fun last rest hlast => ?_⟩
          exact rowsAmong_succ_eq_ok.mpr ⟨_, _, rest, hread, hlast, rfl⟩

/-- A scan that is pulled to its end gives out its buffered rows and then all rows of the pages that are left. -/
theorem Drains.reads {s : Scan} (h : Drains e s rows e') {left n : Nat} {buffered : List Tuple}
    (hs : s.cursor = some ⟨n, n + left, buffered⟩) :
    ∃ rest, rowsAmong s.txn s.table.id left n e = (e', .ok rest) ∧ rows = buffered ++ rest := by
  have hfill : ∀ {e : Engine} {s : Scan} {left n : Nat} {t : Tuple} {buffered : List Tuple},
      fill s.txn s.table.id left e ⟨n, n + left, t :: buffered⟩ = (e, ⟨n, n + left, t :: buffered⟩, .ok ()) := by
    intro e s left n t buffered
    cases left <;> rfl
  induction h generalizing left n buffered with
  | @done e e' s s' h =>
    unfold nextTuple at h
    rw [hs] at h
    simp only [Nat.add_sub_cancel_left] at h
    cases buffered with
    | cons t buffered =>
      rw [hfill] at h
      cases h
    | nil =>
      generalize hout : fill s.txn s.table.id left e ⟨n, n + left, []⟩ = outcome at h
      obtain ⟨e₁, c, result⟩ := outcome
      cases result with
      | error err => cases h
      | ok _ =>
        obtain ⟨read, _, _, _, hall, hrest⟩ := rowsAmong_of_fill hout
        cases hb : c.buffered with
        | cons t later =>
          simp only [hb] at h
          cases h
        | nil =>
          simp only [hb] at h
          cases h
          refine ⟨[], ?_, rfl⟩
          have hlast := hrest _ [] (by rw [hall hb, Nat.sub_self]; rfl)
          rwa [hb] at hlast
  | @row e m e' s s' t rows h rest ih =>
    unfold nextTuple at h
    rw [hs] at h
    simp only [Nat.add_sub_cancel_left] at h
    cases buffered with
    | cons u buffered =>
      rw [hfill] at h
      cases h
      obtain ⟨later, hlater, rfl⟩ := ih rfl
      exact ⟨later, hlater, rfl⟩
    | nil =>
      generalize hout : fill s.txn s.table.id left e ⟨n, n + left, []⟩ = outcome at h
      obtain ⟨e₁, c, result⟩ := outcome
      cases result with
      | error err => cases h
      | ok _ =>
        obtain ⟨read, hle, hnext, hstop, hall, hrest⟩ := rowsAmong_of_fill hout
        cases hb : c.buffered with
        | nil =>
          simp only [hb] at h
          cases h
        | cons u later =>
          simp only [hb] at h
          cases h
          have hleft : n + left = n + read + (left - read) := by omega
          have hcursor : (⟨c.nextPage, c.pageCount, later⟩ : Cursor) = ⟨n + read, n + read + (left - read), later⟩ := by
            rw [hnext, hstop, hleft]
          obtain ⟨last, hlast, rfl⟩ := ih (congrArg some hcursor)
          refine ⟨_, hrest e' last hlast, ?_⟩
          rw [hb]
          rfl

/-- Pulling a scan of a table to its end is scanning the whole table. -/
theorem Drains.act {table : Table} (ht : e.catalog.table? table.id = .ok table)
    (h : Drains e ((Scan.new table txn).openAt e) rows e') :
    e.act (.scan txn table.id) = e' ∧
      rowsAmong txn table.id (e.disk.pageCount e.pageSize table) 0 e = (e', .ok rows) := by
  have hcursor : ((Scan.new table txn).openAt e).cursor = some ⟨0, 0 + e.disk.pageCount e.pageSize table, []⟩ := by
    rw [Nat.zero_add]
    rfl
  obtain ⟨rest, hrest, rfl⟩ := h.reads hcursor
  refine ⟨?_, hrest⟩
  show (e.scanAll txn table.id).1 = e'
  unfold scanAll
  rw [ht]
  exact congrArg Prod.fst hrest

theorem copy?_of_rowsOf {q : PageId} (hs : e.pool.Sane) (h : e.rowsOf txn q = (e', .ok rows)) :
    (∃ page, e'.copy? q = some page ∧ rows = page.tuples) ∧ ∃ mode, e'.locks.modeOf? txn q = some mode := by
  have hpath := path_getPage e txn q .readOnly
  unfold rowsOf at h
  cases hget : e.getPage txn q .readOnly with
  | mk e₁ result =>
    rw [hget] at h hpath
    cases result with
    | error err => cases h
    | ok f =>
      cases h
      obtain ⟨hgranted, hlocks, hres⟩ := getPage_ok hget
      obtain ⟨page, hpage, _⟩ := (hpath.sane hs).keyed _ _ hres
      refine ⟨⟨page, Pool.copy?_of_resident hres hpage, ?_⟩, ?_⟩
      · rw [show e'.page? f = some page from hpage]
        rfl
      · rw [hlocks, LockTable.modeOf?_request hgranted, if_pos ⟨rfl, rfl⟩]
        exact ⟨_, rfl⟩

/-- A scan of pages gives out what they show. -/
theorem entries_of_rowsAmong {left n : Nat} (h : e.Housed) (hf : e.Fitting id)
    {shown : Nat → List (Option RecordId × Bytes)}
    (hshown : ∀ k, n ≤ k → k < n + left → e.ShowsEntries ⟨id, k⟩ (shown k))
    (hrun : rowsAmong txn id left n e = (e', .ok rows)) :
    rows.map Tuple.entry = (List.range' n left).flatMap shown := by
  induction left generalizing e n rows with
  | zero =>
    cases hrun
    rfl
  | succ left ih =>
    obtain ⟨m, first, rest, hread, hrest, rfl⟩ := rowsAmong_succ_eq_ok.mp hrun
    have hpath := path_rowsOf e txn ⟨id, n⟩
    rw [hread] at hpath
    have hsuits : ∀ event ∈ e.getEvents txn ⟨id, n⟩ .readOnly, event.Suits id := forall_getEvents trivial
    have hkept : ∀ k, n ≤ k → k < n + (left + 1) → m.ShowsEntries ⟨id, k⟩ (shown k) := fun k hle hlt =>
      hpath.showsEntries h hf (hshown k hle hlt) (forall_getEvents ⟨trivial, not_false⟩)
    obtain ⟨⟨page, hpage, rfl⟩, _⟩ := copy?_of_rowsOf h.sane hread
    have hfirst : page.tuples.map Tuple.entry = shown n := (hkept n (Nat.le_refl n) (by omega)).copy page hpage
    rw [List.map_append, hfirst, List.range'_succ, List.flatMap_cons,
      ih (hpath.housed h fun _ _ hm => hsuits _ hm) (hpath.fitting h hsuits hf)
        (fun k hle hlt => hkept k (by omega) (by omega)) hrest]

/-- After a scan of pages its transaction holds all of them. -/
theorem held_of_rowsAmong {left n : Nat} (hs : e.pool.Sane) (hp : e.locks.Proper)
    (hrun : rowsAmong txn id left n e = (e', .ok rows)) :
    ∀ k, n ≤ k → k < n + left → ∃ mode, e'.locks.modeOf? txn ⟨id, k⟩ = some mode := by
  induction left generalizing e n rows with
  | zero =>
    intro k hle hlt
    omega
  | succ left ih =>
    obtain ⟨m, first, rest, hread, hrest, rfl⟩ := rowsAmong_succ_eq_ok.mp hrun
    have hpath := path_rowsOf e txn ⟨id, n⟩
    have hlater := path_rowsAmong txn id left (n + 1) m
    rw [hread] at hpath
    rw [hrest] at hlater
    have hproper : m.locks.Proper := by
      rw [(hpath.locks hs).2]
      exact hp.foldl_after _
    intro k hle hlt
    rcases Nat.eq_or_lt_of_le hle with rfl | hlt'
    · -- The first page stays locked while the later ones are read.
      have hgranted : ∀ event ∈ rowsEvents txn id left (n + 1) m, ∃ page, event = .granted txn page .shared :=
        forall_rowsEvents (fun page => ⟨page, rfl⟩) _ _ _
      obtain ⟨_, mode, hmode⟩ := copy?_of_rowsOf hs hread
      obtain ⟨hadmits, hlocks⟩ := hlater.locks (hpath.sane hs)
      obtain ⟨mode', hmode', _⟩ := hproper.modeOf?_foldl_after hadmits
        (fun event hm => by obtain ⟨_, rfl⟩ := hgranted event hm; rfl)
        (fun hm => by obtain ⟨_, he⟩ := hgranted _ hm; cases he) hmode
      exact ⟨mode', by rw [hlocks]; exact hmode'⟩
    · exact ih (hpath.sane hs) hproper hrest k hlt' (by omega)

end RowStore.Engine
