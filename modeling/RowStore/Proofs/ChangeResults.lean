import RowStore.Proofs.PlainTables

/-!
# What is changed has succeeded

Over plain tables storing or removing a row is the last thing that an insert or a delete does before it answers. So once
a row has been stored or removed the request succeeds, and its transaction holds the row's page exclusively when it is
answered. An insert or a delete that fails has at most taken locks, read pages and appended a page.
-/

namespace RowStore.Engine

variable {e : Engine} {txn txn' : TxnId} {id : PageId} {t t' : Tuple} {r : RecordId}

theorem stored_not_mem_getEvents {access : Access} : .stored txn' r t' ∉ e.getEvents txn id access := fun hm =>
  forall_getEvents (P := (· ≠ .stored txn' r t')) nofun _ hm rfl

theorem removed_not_mem_getEvents {access : Access} : .removed txn' r ∉ e.getEvents txn id access := fun hm =>
  forall_getEvents (P := (· ≠ .removed txn' r)) nofun _ hm rfl

theorem storeIn_of_stored {f : FrameId} {page : Page} (hid : page.id = id)
    (hx : e.locks.modeOf? txn id = some .exclusive) (hm : .stored txn' r t' ∈ storeEvents txn page t) :
    ∃ e', e.storeIn txn f page t = (e', .ok f) ∧ e'.locks.modeOf? txn r.page = some .exclusive := by
  unfold storeEvents at hm
  unfold storeIn
  cases hi : page.insert t with
  | error err =>
    rw [hi] at hm
    cases hm
  | ok stored =>
    rw [hi] at hm
    cases List.mem_singleton.mp hm
    refine ⟨_, rfl, ?_⟩
    rw [(Page.id_of_insert hi).2, hid]
    exact hx

theorem insertAmong_of_stored {table : TableId} {left n : Nat} (hs : e.pool.Sane)
    (hm : .stored txn' r t' ∈ insertAmongEvents txn table t left n e) :
    ∃ e' g, insertAmong txn table t left n e = (e', .ok (some g)) ∧
      e'.locks.modeOf? txn r.page = some .exclusive := by
  induction left generalizing n e with
  | zero => cases hm
  | succ left ih =>
    have hpath := path_getPage e txn ⟨table, n⟩ .readWrite
    unfold insertAmongEvents at hm
    replace hm := (List.mem_append.mp hm).resolve_left stored_not_mem_getEvents
    unfold insertAmong
    cases hget : e.getPage txn ⟨table, n⟩ .readWrite with
    | mk m result =>
      rw [hget] at hm hpath
      cases result with
      | error err => cases hm
      | ok f =>
        obtain ⟨page, hpage, hid⟩ := (hpath.sane hs).keyed _ _ (getPage_ok hget).2.2
        simp only [show m.page? f = some page from hpage] at hm ⊢
        split at hm
        · rename_i hfree
          obtain ⟨e', hstore, hx⟩ := storeIn_of_stored hid (exclusive_of_getPage hget) hm
          rw [if_pos hfree, hstore]
          exact ⟨e', f, rfl, hx⟩
        · rename_i hfull
          rw [if_neg hfull]
          exact ih (hpath.sane hs) hm

theorem storeAt_of_stored (hs : e.pool.Sane) (hm : .stored txn' r t' ∈ e.storeAtEvents txn id t) :
    ∃ e' changed, e.storeAt txn id t = (e', .ok changed) ∧ e'.locks.modeOf? txn r.page = some .exclusive := by
  have hpath := path_getPage e txn id .readWrite
  unfold storeAtEvents at hm
  replace hm := (List.mem_append.mp hm).resolve_left stored_not_mem_getEvents
  unfold storeAt
  cases hget : e.getPage txn id .readWrite with
  | mk m result =>
    rw [hget] at hm hpath
    cases result with
    | error err => cases hm
    | ok f =>
      obtain ⟨page, hpage, hid⟩ := (hpath.sane hs).keyed _ _ (getPage_ok hget).2.2
      simp only [show m.page? f = some page from hpage, Option.elim_some] at hm ⊢
      obtain ⟨e', hstore, hx⟩ := storeIn_of_stored hid (exclusive_of_getPage hget) hm
      rw [hstore]
      exact ⟨e', [f], rfl, hx⟩

theorem insertAtEnd_of_stored {table : Table} {table' : TableId} (hs : e.pool.Sane)
    (ht : e.catalog.table? table' = .ok table) (hm : .stored txn' r t' ∈ e.insertAtEndEvents txn table t) :
    ∃ e' changed, e.insertAtEnd txn table t = (e', .ok changed) ∧ e'.locks.modeOf? txn r.page = some .exclusive := by
  have happend := path_appendPage ht
  unfold insertAtEndEvents at hm
  rw [insertAtEnd_eq]
  generalize e.appendPage table = outcome at happend hm ⊢
  obtain ⟨m, result⟩ := outcome
  cases result with
  | error err => cases hm
  | ok new => exact storeAt_of_stored (happend.2.sane hs) ((List.mem_cons.mp hm).resolve_left nofun)

theorem insertInto_of_stored {table : Table} {table' : TableId} (hs : e.pool.Sane)
    (ht : e.catalog.table? table' = .ok table) (hm : .stored txn' r t' ∈ e.insertIntoEvents txn table t) :
    ∃ e' changed, e.insertInto txn table t = (e', .ok changed) ∧ e'.locks.modeOf? txn r.page = some .exclusive := by
  unfold insertIntoEvents at hm
  split at hm
  · cases hm
  · rename_i hschema
    have hpath := path_insertAmong txn table.id t (e.disk.pageCount e.pageSize table) 0 e
    unfold insertInto
    rw [if_neg hschema]
    rcases List.mem_append.mp hm with hm | hm
    · obtain ⟨e', g, hamong, hx⟩ := insertAmong_of_stored hs hm
      rw [hamong]
      exact ⟨e', [g], rfl, hx⟩
    · generalize insertAmong txn table.id t (e.disk.pageCount e.pageSize table) 0 e = outcome at hpath hm ⊢
      obtain ⟨m, result⟩ := outcome
      cases result with
      | error err => cases hm
      | ok found =>
        cases found with
        | some f => cases hm
        | none =>
          have ht' : m.catalog.table? table' = .ok table := by rw [hpath.catalog_eq, ht]
          exact insertAtEnd_of_stored (hpath.sane hs) ht' hm

theorem deleteFrom_of_removed {table : Table} {record : RecordId} (hs : e.pool.Sane)
    (hm : .removed txn' r ∈ e.deleteFromEvents txn table record) :
    ∃ e' changed, e.deleteFrom txn table (some record) = (e', .ok changed) ∧
      e'.locks.modeOf? txn r.page = some .exclusive := by
  have hpath := path_getPage e txn record.page .readWrite
  unfold deleteFromEvents at hm
  unfold deleteFrom
  simp only
  split at hm
  · cases hm
  · rename_i hthere
    replace hm := (List.mem_append.mp hm).resolve_left removed_not_mem_getEvents
    rw [if_neg hthere]
    cases hget : e.getPage txn record.page .readWrite with
    | mk m result =>
      rw [hget] at hm hpath
      cases result with
      | error err => cases hm
      | ok f =>
        obtain ⟨page, hpage, _⟩ := (hpath.sane hs).keyed _ _ (getPage_ok hget).2.2
        simp only [show m.page? f = some page from hpage, Option.elim_some, removeEvents] at hm ⊢
        cases hd : page.delete (some record) with
        | error err =>
          rw [hd] at hm
          cases hm
        | ok page' =>
          rw [hd] at hm
          cases List.mem_singleton.mp hm
          have hx : m.locks.modeOf? txn r.page = some .exclusive := exclusive_of_getPage hget
          exact ⟨_, [f], rfl, hx⟩

/-- An insert that stores a row succeeds, and holds the row's page exclusively. -/
theorem insertTuple_of_stored {table : TableId} (hp : e.Plain) (hs : e.pool.Sane)
    (hm : .stored txn' r t' ∈ e.insertEvents txn table t) :
    (e.insertTuple txn table t).2 = .ok () ∧
      (e.insertTuple txn table t).1.locks.modeOf? txn r.page = some .exclusive := by
  cases ht : e.catalog.table? table with
  | error err =>
    unfold insertEvents at hm
    rw [ht] at hm
    cases hm
  | ok found =>
    obtain ⟨hevents, replacer, hinsert⟩ := insertTuple_plain txn t hs ht (hp _ _ ht)
    rw [hevents] at hm
    obtain ⟨e', changed, hinto, hx⟩ := insertInto_of_stored hs ht hm
    rw [hinsert, hinto]
    exact ⟨rfl, hx⟩

theorem deleteTuple_of_removed {record : Option RecordId} (hp : e.Plain) (hs : e.pool.Sane)
    (hm : .removed txn' r ∈ e.deleteEvents txn record) :
    (e.deleteTuple txn record).2 = .ok () ∧
      (e.deleteTuple txn record).1.locks.modeOf? txn r.page = some .exclusive := by
  cases record with
  | none => cases hm
  | some record =>
    cases ht : e.catalog.table? record.page.table with
    | error err =>
      unfold deleteEvents at hm
      simp only [ht] at hm
      cases hm
    | ok found =>
      obtain ⟨hevents, replacer, hdelete⟩ := deleteTuple_plain txn hs ht (hp _ _ ht)
      rw [hevents] at hm
      obtain ⟨e', changed, hfrom, hx⟩ := deleteFrom_of_removed hs hm
      rw [hdelete, hfrom]
      exact ⟨rfl, hx⟩

end RowStore.Engine
