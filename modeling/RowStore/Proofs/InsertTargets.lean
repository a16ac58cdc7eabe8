import RowStore.Proofs.PagesOnFile

/-!
# Which table grows

Rows are stored in pages of the table that an insert was asked for, and only that table gets a page more. An insert
begins with the first page of its table, so while somebody else holds that page it does nothing at all. A table with
pages therefore neither gets a row nor a page while a transaction that has read it is running.
-/

namespace RowStore

/-- The table that an event adds a row or a page to. -/
def Event.addsTo : Event → Option TableId
  | .stored _ r _ => some r.page.table
  | .appended page => some page.table
  | _ => none

def Event.AddsOnlyTo (id : TableId) (event : Event) : Prop := ∀ other, event.addsTo = some other → other = id

theorem Action.MayLeave.inserts_of_adds {a : Action} {event : Event} {id : TableId} (h : a.MayLeave event)
    (ha : event.addsTo = some id) : ∃ txn table t, a = .ask (.insert txn table t) := by
  cases a with
  | ask r =>
    cases r with
    | insert txn table t => exact ⟨txn, table, t, rfl⟩
    | get | delete | commit | abort | flush | flushTxn | flushAll | discard | release =>
      cases event <;> first | exact h.elim | cases ha
  | next s => cases event <;> first | exact h.elim | cases ha
  | scan txn table => cases event <;> first | exact h.elim | cases ha

namespace Engine

variable {e : Engine} {id : TableId} {table : Table} {txn : TxnId} {t : Tuple}

theorem addsTo_storeEvents {page : Page} (hid : page.id.table = id) :
    ∀ event ∈ storeEvents txn page t, event.AddsOnlyTo id := by
  unfold storeEvents
  split
  · exact List.forall_mem_nil _
  · rename_i page' r hi
    refine List.forall_mem_singleton.mpr fun other he => ?_
    rw [← Option.some.inj he, (Page.id_of_insert hi).2, hid]

theorem addsTo_getEvents {q : PageId} {access : Access} :
    ∀ event ∈ e.getEvents txn q access, ∀ other, event.addsTo = some other → other = id :=
  forall_getEvents nofun

theorem addsTo_insertAmongEvents (hs : e.pool.Sane) (left n : Nat) :
    ∀ event ∈ insertAmongEvents txn id t left n e, event.AddsOnlyTo id := by
  induction left generalizing n e with
  | zero => exact List.forall_mem_nil _
  | succ left ih =>
    have hpath := path_getPage e txn ⟨id, n⟩ .readWrite
    unfold insertAmongEvents
    refine List.forall_mem_append.mpr ⟨addsTo_getEvents, ?_⟩
    cases hget : e.getPage txn ⟨id, n⟩ .readWrite with
    | mk m result =>
      rw [hget] at hpath
      cases result with
      | error err => exact List.forall_mem_nil _
      | ok f =>
        obtain ⟨page, hpage, hid⟩ := (hpath.sane hs).keyed _ _ (getPage_ok hget).2.2
        simp only [show m.page? f = some page from hpage]
        split
        · exact addsTo_storeEvents (by rw [hid])
        · exact ih (hpath.sane hs) (n + 1)

theorem addsTo_storeAtEvents (hs : e.pool.Sane) {q : PageId} (hq : q.table = id) :
    ∀ event ∈ e.storeAtEvents txn q t, event.AddsOnlyTo id := by
  have hpath := path_getPage e txn q .readWrite
  unfold storeAtEvents
  refine List.forall_mem_append.mpr ⟨addsTo_getEvents, ?_⟩
  cases hget : e.getPage txn q .readWrite with
  | mk m result =>
    rw [hget] at hpath
    cases result with
    | error err => exact List.forall_mem_nil _
    | ok f =>
      obtain ⟨page, hpage, hid⟩ := (hpath.sane hs).keyed _ _ (getPage_ok hget).2.2
      simp only [show m.page? f = some page from hpage, Option.elim_some]
      exact addsTo_storeEvents (by rw [hid, hq])

theorem addsTo_insertAtEndEvents (hs : e.pool.Sane) (ht : e.catalog.table? table.id = .ok table) :
    ∀ event ∈ e.insertAtEndEvents txn table t, event.AddsOnlyTo table.id := by
  have happend := path_appendPage ht
  unfold insertAtEndEvents
  generalize e.appendPage table = outcome at happend ⊢
  obtain ⟨m, result⟩ := outcome
  cases result with
  | error err => exact List.forall_mem_nil _
  | ok new =>
    obtain ⟨hnew, hpath⟩ := happend
    refine List.forall_mem_cons.mpr ⟨fun other he => ?_, addsTo_storeAtEvents (hpath.sane hs) (by rw [hnew])⟩
    rw [← Option.some.inj he, hnew]

theorem addsTo_insertEvents (hl : e.Layout) (hs : e.pool.Sane) :
    ∀ event ∈ e.insertEvents txn id t, event.AddsOnlyTo id := by
  cases ht : e.catalog.table? id with
  | error err =>
    unfold insertEvents
    rw [ht]
    exact List.forall_mem_nil _
  | ok table =>
    obtain rfl := hl.keyed _ _ ht
    rw [(insertTuple_plain txn t hs ht (hl.plain _ _ ht)).1]
    unfold insertIntoEvents
    split
    · exact List.forall_mem_nil _
    · refine List.forall_mem_append.mpr ⟨addsTo_insertAmongEvents hs _ _, ?_⟩
      have hpath := path_insertAmong txn table.id t (e.disk.pageCount e.pageSize table) 0 e
      split
      · rename_i m heq
        rw [heq] at hpath
        exact addsTo_insertAtEndEvents (hpath.sane hs) (by rw [hpath.fixed.1]; exact ht)
      · exact List.forall_mem_nil _

/-- A row comes into a table by an insert into it. -/
theorem inserts_of_stored (hl : e.Layout) (hs : e.pool.Sane) {a : Action} {r : RecordId}
    (hm : .stored txn r t ∈ e.events a) : a = .ask (.insert txn r.page.table t) := by
  have hkind := mayLeave_of_mem_events _ hm
  obtain ⟨_, id, _, rfl⟩ := hkind.inserts_of_adds rfl
  obtain ⟨rfl, rfl⟩ := hkind
  rw [addsTo_insertEvents hl hs _ hm _ rfl]

theorem inserts_of_stored_history (hl : e.Layout) (hs : e.pool.Sane) {as : List Action} {r : RecordId}
    (hm : .stored txn r t ∈ e.history as) : .ask (.insert txn r.page.table t) ∈ as := by
  induction as generalizing e with
  | nil => cases hm
  | cons a rest ih =>
    have hpath := path_act e a
    rcases List.mem_append.mp hm with hm | hm
    · rw [inserts_of_stored hl hs hm]
      exact List.mem_cons_self
    · exact List.mem_cons_of_mem a (ih (hpath.layout hl) (hpath.sane hs) hm)

/-- While somebody else holds the first page of a table an insert into it does nothing. -/
theorem insertEvents_of_held (hl : e.Layout) (hs : e.pool.Sane) (hp : e.locks.Proper)
    (ht : e.catalog.table? table.id = .ok table) (hcount : 0 < e.disk.pageCount e.pageSize table) {reader : TxnId}
    {mode : LockMode} (hheld : e.locks.modeOf? reader ⟨table.id, 0⟩ = some mode) (hne : reader ≠ txn) :
    e.insertEvents txn table.id t = [] := by
  have hrefused : ¬ (e.locks.request txn ⟨table.id, 0⟩ Access.readWrite.lockMode).2 = true :=
    Bool.eq_false_iff.mp (hp.request_conflict hne hheld (.inr rfl))
  have hget : e.getPage txn ⟨table.id, 0⟩ .readWrite = (e, .error (.transactionAborted txn)) := by
    rw [getPage_eq, if_neg hrefused]
  have hevents : e.getEvents txn ⟨table.id, 0⟩ .readWrite = [] := if_neg hrefused
  obtain ⟨left, hleft⟩ := Nat.exists_eq_add_one.mpr hcount
  rw [(insertTuple_plain txn t hs ht (hl.plain _ _ ht)).1]
  unfold insertIntoEvents
  split
  · rfl
  · rw [hleft, insertAmongEvents, insertAmong, hget, hevents]
    rfl

end Engine

end RowStore
