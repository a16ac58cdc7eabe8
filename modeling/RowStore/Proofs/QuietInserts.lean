import RowStore.Proofs.TableScans

/-!
# Inserts into a quiet store

While the store is quiet nothing can stop an insert: every page can be fetched, and when all of them are full there is
room on a new one. So the insert of a row that has the schema of its table succeeds, if any row fits on a page.
-/

namespace RowStore.Engine

variable {e e' : Engine} {id : TableId} {table : Table} {txn : TxnId} {t : Tuple}

theorem Faultless.appendPage (hf : e.Faultless) (table : Table) :
    ∃ faults, e.appendPage table =
      ({ e with disk := (e.disk.appendPage e.pageSize table).1, faults := faults },
        .ok ⟨table.id, e.disk.pageCount e.pageSize table⟩) := by
  unfold Engine.appendPage
  rw [hf.call]
  exact ⟨_, rfl⟩

namespace Steady

/-- On a fetched page with room a row of the table's schema is stored. -/
theorem storeIn_succeeds (h : e.Steady) (ht : e.catalog.table? id = .ok table) (hschema : t.schema = table.schema)
    {n : Nat} {f : FrameId} {page : Page} (hget : e.getPage txn ⟨id, n⟩ .readWrite = (e', .ok f))
    (hpage : e'.page? f = some page) (hroom : 0 < page.freeSlots) : (e'.storeIn txn f page t).2 = .ok f := by
  obtain ⟨page', hpage', hid, hlegal, _⟩ := h.page_of_getPage hget
  cases hpage.symm.trans hpage'
  have hc := (path_getPage e txn ⟨id, n⟩ .readWrite).fixed.1
  rw [hget] at hc
  obtain ⟨table', ht', hschema'⟩ := hlegal.schema
  rw [hid, hc, ht] at ht'
  cases ht'
  obtain ⟨page', r, hi⟩ := hlegal.exact.insert_of_free (hschema.trans hschema') hroom
  unfold Engine.storeIn
  rw [hi]

/-- While the store is quiet a walk over the pages of a table fails nowhere. It comes to its end if all pages are
full. -/
theorem insertAmong_succeeds (h : e.Steady) (hq : e.Quiet txn) (ht : e.catalog.table? id = .ok table)
    (hschema : t.schema = table.schema) (left n : Nat) (hi : ∀ k, n ≤ k → k < n + left → (e.image? ⟨id, k⟩).isSome) :
    ∃ found, (insertAmong txn id t left n e).2 = .ok found ∧
      (found = none → (insertAmong txn id t left n e).1.Quiet txn) ∧
      ((∀ k, n ≤ k → k < n + left → e.Full table k) → found = none) := by
  induction left generalizing n e with
  | zero => exact ⟨none, rfl, fun _ => hq, fun _ => rfl⟩
  | succ left ih =>
    obtain ⟨e₁, f, hget⟩ := hq.getPage_ok h (hi n (Nat.le_refl n) (by omega)) .readWrite
    obtain ⟨page, hpage, _⟩ := h.page_of_getPage hget
    have hfull := h.full_iff_no_room ht hget hpage
    have hstore := fun hroom => h.storeIn_succeeds ht hschema hget hpage hroom
    have hsteady := h.getPage txn ⟨id, n⟩ .readWrite
    have hquiet := hq.getPage h ⟨id, n⟩ .readWrite
    have hsame := h.row?_getPage txn ⟨id, n⟩ .readWrite
    have hpages := h.isSome_image?_getPage txn ⟨id, n⟩ .readWrite
    obtain ⟨hc, hs, _⟩ := (path_getPage e txn ⟨id, n⟩ .readWrite).fixed
    rw [hget] at hsteady hquiet hsame hpages hc hs
    unfold insertAmong
    rw [hget]
    simp only [hpage]
    by_cases hroom : 0 < page.freeSlots
    · rw [if_pos hroom]
      have hok := hstore hroom
      generalize e₁.storeIn txn f page t = outcome at hok ⊢
      obtain ⟨e₂, result⟩ := outcome
      change result = _ at hok
      subst hok
      exact ⟨some f, rfl, nofun, fun hall => absurd hroom (hfull.mp (hall n (Nat.le_refl n) (by omega)))⟩
    · rw [if_neg hroom]
      obtain ⟨found, hfound, hend, hlast⟩ := ih hsteady hquiet (by rw [hc]; exact ht) (n := n + 1) fun k hge hlt =>
        (hpages _).mpr (hi k (by omega) (by omega))
      refine ⟨found, hfound, hend, fun hall => hlast fun k hge hlt => ?_⟩
      exact (hall k (by omega) (by omega)).congr (fun r => (hsame r).symm) hs.symm

theorem storeAt_succeeds (h : e.Steady) (hq : e.Quiet txn) (ht : e.catalog.table? id = .ok table)
    (hschema : t.schema = table.schema) {n : Nat} (hi : (e.image? ⟨id, n⟩).isSome) (hroom : ¬ e.Full table n) :
    ∃ changed, (e.storeAt txn ⟨id, n⟩ t).2 = .ok changed := by
  obtain ⟨e₁, f, hget⟩ := hq.getPage_ok h hi .readWrite
  obtain ⟨page, hpage, _⟩ := h.page_of_getPage hget
  have hfull := h.full_iff_no_room ht hget hpage
  have hstore := h.storeIn_succeeds ht hschema hget hpage (Classical.byContradiction fun hn => hroom (hfull.mpr hn))
  unfold storeAt
  rw [hget]
  simp only [hpage]
  generalize e₁.storeIn txn f page t = outcome at hstore ⊢
  obtain ⟨e₂, result⟩ := outcome
  change result = _ at hstore
  subst hstore
  exact ⟨[f], rfl⟩

theorem appendPage_succeeds (h : e.Steady) (hr : e.InRange) (ht : e.catalog.table? id = .ok table) {count : Nat}
    (hl : (e.disk.contents table.file).length = count * e.pageSize) :
    ∃ e₁, e.appendPage table = (e₁, .ok ⟨id, count⟩) ∧ e₁.Steady ∧ (∀ r, e₁.row? r = e.row? r) ∧
      e₁.catalog = e.catalog ∧ e₁.pageSize = e.pageSize ∧ e₁.pool = e.pool ∧ e₁.locks = e.locks ∧
      (e₁.image? ⟨id, count⟩).isSome ∧ e.image? ⟨id, count⟩ = none ∧
      (e₁.disk.contents table.file).length = (count + 1) * e.pageSize := by
  have hid := h.keyed _ _ ht
  have hlt := hr id table ht
  rw [hl] at hlt
  have hcount : count < PageFile.numbers := Nat.lt_of_mul_lt_mul_right hlt
  have hnumber : e.disk.pageCount e.pageSize table = count := PageFile.pageCount_eq h.pageSize_pos hl hcount
  have happend := ranged_appendPage hr ht
  obtain ⟨faults, hstate⟩ := h.faultless.appendPage table
  rw [hstate] at happend
  obtain ⟨_, hranged⟩ := happend
  have hsteady := h.along hranged (List.forall_mem_singleton.mpr trivial)
  obtain ⟨_, hsame⟩ := h.along_idle hranged (List.forall_mem_singleton.mpr trivial)
  rw [hid, hnumber] at hstate
  refine ⟨_, hstate, hsteady, hsame, rfl, rfl, rfl, rfl, ?_, ?_, ?_⟩
  · have himage := h.toOwnFiles.image?_append ht ⟨id, count⟩
    rw [if_pos (by rw [hnumber])] at himage
    exact Option.isSome_iff_exists.mpr ⟨_, himage⟩
  · rw [← Option.not_isSome_iff_eq_none, @image?_of_table e ⟨id, count⟩ _ ht,
      PageFile.isSome_page?_iff_lt h.pageSize_pos hl]
    exact Nat.lt_irrefl count
  · have hcontents := Disk.contents_setContents (h.placed _ _ ht)
      (PageFile.append e.pageSize (e.disk.contents table.file)) table.file
    rw [if_pos rfl] at hcontents
    exact (congrArg SparseBytes.length hcontents).trans (PageFile.length_append h.pageSize_pos hl hcount)

/-- While the store is quiet a row can be stored on a new page, and the file grows by that page. -/
theorem insertAtEnd_succeeds (h : e.Steady) (hr : e.InRange) (hq : e.Quiet txn) (ht : e.catalog.table? id = .ok table)
    (hschema : t.schema = table.schema) (hslots : 0 < table.schema.slotCount e.pageSize) {count : Nat}
    (hl : (e.disk.contents table.file).length = count * e.pageSize) :
    (∃ changed, (e.insertAtEnd txn table t).2 = .ok changed) ∧
      ((e.insertAtEnd txn table t).1.disk.contents table.file).length = (count + 1) * e.pageSize := by
  obtain ⟨e₁, happend, hsteady, hsame, hc, hs, hpool, hlocks, himage, hnone, hlength⟩ := h.appendPage_succeeds hr ht hl
  have hquiet : e₁.Quiet txn := by
    refine ⟨?_, ?_, ?_, ?_⟩
    · rw [hlocks]
      exact hq.alone
    · unfold mark? Engine.copy?
      rw [hpool]
      exact hq.unmarked
    · rw [hpool]
      exact hq.unwritten
    · rw [hpool]
      exact hq.capacity_pos
  have hroom : ¬ e₁.Full table count := by
    intro hfull
    have hrow := hfull 0 (by rw [hs]; exact hslots)
    rw [hsame, h.keyed _ _ ht, h.row?_of_no_image hnone] at hrow
    cases hrow
  have hstore := hsteady.storeAt_succeeds hquiet (by rw [hc]; exact ht) hschema himage hroom
  have hfiles := (path_storeAt e₁ txn ⟨id, count⟩ t).files_eq
    (fun page hm => forall_storeAtEvents (P := (· ≠ .appended page)) nofun (fun _ => nofun) _ hm rfl)
    (fun page hm => forall_storeAtEvents (P := (· ≠ .written page)) nofun (fun _ => nofun) _ hm rfl)
  rw [insertAtEnd_eq, happend]
  refine ⟨hstore, ?_⟩
  rw [← hlength]
  unfold Disk.contents
  exact congrArg (fun files => (files.getD table.file .empty).length) hfiles

/-- While the store is quiet every insert of a row of the table's schema succeeds, and if all pages are full the file
grows by a page. -/
theorem insertTuple_succeeds (h : e.Steady) (hr : e.InRange) (hq : e.Quiet txn) (ht : e.catalog.table? id = .ok table)
    (hschema : t.schema = table.schema) (hslots : 0 < table.schema.slotCount e.pageSize) {count : Nat}
    (hl : (e.disk.contents table.file).length = count * e.pageSize) :
    (e.insertTuple txn id t).2 = .ok () ∧ ((∀ n < count, e.Full table n) →
      ((e.insertTuple txn id t).1.disk.contents table.file).length = (count + 1) * e.pageSize) := by
  have hid := h.keyed _ _ ht
  obtain ⟨count', hl', hcount, hpages⟩ := h.pages hr ht
  cases Nat.eq_of_mul_eq_mul_right h.pageSize_pos (hl.symm.trans hl')
  obtain ⟨_, replacer, hinsert⟩ := insertTuple_plain txn t h.sane ht (h.plain _ _ ht)
  obtain ⟨found, hfound, hend, hlast⟩ := h.insertAmong_succeeds hq ht hschema count 0 fun k _ hlt =>
    (hpages k).mpr (by omega)
  have hwalk := h.insertAmong_walked ht txn t count 0
  obtain ⟨hranged, hfiles⟩ := ranged_insertAmong txn id t count 0 e
  obtain ⟨hc, hs, _⟩ := hranged.path.fixed
  rw [hinsert]
  unfold insertInto
  rw [if_neg fun hne => hne hschema, hid, hcount]
  generalize insertAmongEvents txn id t count 0 e = l at hwalk hranged
  generalize insertAmong txn id t count 0 e = outcome at hfound hend hwalk hranged hfiles hc hs ⊢
  obtain ⟨e₁, result⟩ := outcome
  change result = _ at hfound
  subst hfound
  cases found with
  | some f => exact ⟨rfl, fun hfull => nomatch hlast fun k _ hlt => hfull k (by omega)⟩
  | none =>
    have hsteady := h.along hranged fun event hm => (hwalk.1 event hm).fair
    have hl₁ : (e₁.disk.contents table.file).length = count * e₁.pageSize := by
      unfold Disk.contents
      rw [hfiles, hs]
      exact hl
    obtain ⟨⟨changed, hok⟩, hlength⟩ := hsteady.insertAtEnd_succeeds (hr.congr hc hs hfiles) (hend rfl)
      (by rw [hc]; exact ht) hschema (by rw [hs]; exact hslots) hl₁
    refine ⟨?_, fun _ => by rw [hlength, hs]⟩
    show (e₁.insertAtEnd txn table t).2.map _ = _
    rw [hok]
    rfl

end Steady

end RowStore.Engine
