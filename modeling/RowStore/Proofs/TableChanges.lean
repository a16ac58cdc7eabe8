import RowStore.Proofs.DeletedRows
import RowStore.Proofs.FailedInserts
import RowStore.Proofs.FullTables

/-!
# What an insert and a delete do to a table

A reader sees a table as a map from record ids to rows, some of which lie in memory and some on file only. An insert that
succeeds adds one entry to the map, at the least record id that has none, whichever pages were loaded and given up on the
way there; it makes the file longer when all pages are full and not before. A delete that succeeds takes one entry out.
Nothing else changes in this table or another. The page of the entry is in memory then, marked and locked by the
transaction, which can therefore delete again what it has just inserted, and so restore the map.
-/

namespace RowStore.Engine

variable {e e' e'' : Engine} {txn other : TxnId} {id : TableId} {table : Table} {t : Tuple} {r : RecordId}

/-- Whether a record id lies on a page that the table has, and the files are left as they are, or on a new page. Only when
all pages are full a new page comes behind them, as zeros on file, and its first slot is the record id. -/
inductive Placement (e : Engine) (table : Table) (r : RecordId) (e' : Engine) : Prop
  | existing (hlt : r.page.number < e.disk.pageCount e.pageSize table) (hfiles : e'.disk.files = e.disk.files)
  | appended (hfull : ∀ n < e.disk.pageCount e.pageSize table, e.Full table n)
      (hr : r = ⟨⟨table.id, e.disk.pageCount e.pageSize table⟩, 0⟩)
      (hgrown : (e'.disk.contents table.file).toBytes = (e.disk.contents table.file).toBytes ++ Bytes.zeros e.pageSize)
      (hothers : ∀ file, file ≠ table.file → e'.disk.contents file = e.disk.contents file)

/-- One entry has been added, at the least record id without one. -/
structure Inserted (e : Engine) (txn : TxnId) (table : Table) (t : Tuple) (r : RecordId) (e' : Engine) : Prop where
  least : e.FreeFrom table 0 r
  rows : ∀ q, e'.row? q = if r = q then some t.encode else e.row? q
  place : e.Placement table r e'
  pending : e'.Pending txn r.page

/-- One entry has been taken out. -/
structure Removed (e : Engine) (txn : TxnId) (r : RecordId) (e' : Engine) : Prop where
  there : (e.row? r).isSome
  rows : ∀ q, e'.row? q = if r = q then none else e.row? q
  files : e'.disk.files = e.disk.files
  pending : e'.Pending txn r.page

/-- To take the new entry out again restores the map. -/
theorem Inserted.undone (hi : e.Inserted txn table t r e') (hd : e'.Removed other r e'') (q : RecordId) :
    e''.row? q = e.row? q := by
  rw [hd.rows]
  split
  · rename_i hq
    rw [← hq, hi.least.free]
  · rename_i hq
    rw [hi.rows, if_neg hq]

/-- A transaction that has changed a page gets it again. -/
theorem Pending.getPage {page : PageId} (h : e.Pending txn page) (access : Access) :
    ∃ e' f, e.getPage txn page access = (e', .ok f) := by
  obtain ⟨copy, hcopy, _⟩ := h.copy?
  obtain ⟨f, hf, _⟩ := Pool.copy?_eq_some.mp hcopy
  have hcovers : LockMode.exclusive.covers access.lockMode = true := by
    cases access <;> rfl
  rw [getPage_eq, LockTable.request_of_covers h.lock hcovers, if_pos rfl]
  unfold fetch
  simp only [hf]
  exact ⟨_, f, rfl⟩

namespace Sound

theorem placement (h : e.Sound) (hr : e.InRange) (ht : e.catalog.table? id = .ok table) (hfree : e.FreeFrom table 0 r)
    (hon : ((e.insertTuple txn id t).1.image? r.page).isSome) :
    e.Placement table r (e.insertTuple txn id t).1 := by
  obtain rfl := h.keyed _ _ ht
  obtain ⟨count, hl, hcount, hpages⟩ := h.pages hr ht
  rcases insertTuple_cases ht txn t with ⟨_, hfiles⟩ | ⟨e₁, e₂, l, happends⟩
  · obtain ⟨hc, hs, _⟩ := (path_insertTuple e txn table.id t).fixed
    have hpage : r.page = ⟨table.id, r.page.number⟩ := by rw [← hfree.on_table]
    rw [image?_congr hc hs hfiles, hpage, hpages] at hon
    exact .existing (by rwa [hcount]) hfiles
  · have hwalk := h.insertAmong_walked ht txn t (e.disk.pageCount e.pageSize table) 0
    rw [happends.walked] at hwalk
    have hfull : ∀ n < e.disk.pageCount e.pageSize table, e.Full table n := fun n hn =>
      hwalk.2 n (Nat.zero_le n) (by omega)
    have hin : count < PageFile.numbers := by
      have hlt := hr _ _ ht
      rw [hl] at hlt
      exact Nat.lt_of_mul_lt_mul_right hlt
    refine .appended hfull (h.eq_of_full hr ht hfree hfull) ?_ fun file hne => ?_
    · rw [happends.contents_eq (h.placed _ _ ht), PageFile.toBytes_append h.pageSize_pos hl hin]
    · have hset := Disk.contents_setContents (h.placed _ _ ht)
        (PageFile.append e.pageSize (e.disk.contents table.file)) file
      rw [if_neg hne] at hset
      show (e.insertTuple txn table.id t).1.disk.files.getD file .empty = _
      rw [happends.files]
      exact hset

/-- An insert that succeeds adds its row to the table. -/
theorem inserted_of_ok (h : e.Sound) (hp : e.locks.Proper) (hr : e.InRange) (ht : e.catalog.table? id = .ok table)
    (hb : ∃ schema values, Tuple.ofValues schema values = .ok t) (hok : (e.insertTuple txn id t).2 = .ok ()) :
    ∃ r, e.Inserted txn table t r (e.insertTuple txn id t).1 := by
  have hstores := h.insertTuple_stores hr ht txn t
  rw [hok] at hstores
  obtain ⟨before, r, hevents, hidle, hfree⟩ := hstores
  have hfirm : e.Firm := ⟨h.housed, hp⟩
  have hstored : .stored txn r t ∈ e.events (.ask (.insert txn id t)) := by
    show _ ∈ e.insertEvents txn id t
    rw [hevents]
    exact List.mem_append_right _ List.mem_cons_self
  have hpending : (e.insertTuple txn id t).1.Pending txn r.page := hfirm.pending_of_change hstored ⟨rfl, rfl⟩
  have hranged := ranged_act hr (.ask (.insert txn id t))
  have hfair := h.fair (a := .ask (.insert txn id t)) hb
  have hsound : (e.insertTuple txn id t).1.Sound := hranged.sound h hfair
  obtain ⟨copy, hcopy, _⟩ := hpending.copy?
  refine ⟨r, hfree, fun q => ?_, h.placement hr ht hfree (hsound.backed _ _ hcopy).on_file, hpending⟩
  have hfold := congrArg Prod.fst (hranged.rows h hfair q)
  rw [show e.events (.ask (.insert txn id t)) = _ from hevents, Event.foldl_onRow_stored hidle] at hfold
  exact hfold

/-- A delete that succeeds takes the row at its record id out of the table. -/
theorem removed_of_ok (h : e.Sound) (hp : e.locks.Proper) {record : Option RecordId}
    (hok : (e.deleteTuple txn record).2 = .ok ()) :
    ∃ r, record = some r ∧ e.Removed txn r (e.deleteTuple txn record).1 := by
  have hremoves := h.deleteTuple_removes txn record
  rw [hok] at hremoves
  obtain ⟨before, r, rfl, hevents, hidle, hthere⟩ := hremoves
  have hfirm : e.Firm := ⟨h.housed, hp⟩
  have hpath := path_act e (.ask (.delete txn (some r)))
  have happended : ∀ page, .appended page ∉ e.events (.ask (.delete txn (some r))) := fun page hm =>
    mayLeave_of_mem_events _ hm
  have hfiles := hpath.files_eq happended fun page hm => mayLeave_of_mem_events _ hm
  have hremoved : .removed txn r ∈ e.events (.ask (.delete txn (some r))) := by
    show _ ∈ e.deleteEvents txn (some r)
    rw [hevents]
    exact List.mem_append_right _ List.mem_cons_self
  refine ⟨r, rfl, hthere, fun q => ?_, hfiles, hfirm.pending_of_change hremoved ⟨rfl, rfl⟩⟩
  have hfold := congrArg Prod.fst ((hpath.ranged_of_not_appended happended).rows h (h.fair trivial) q)
  rw [show e.events (.ask (.delete txn (some r))) = _ from hevents, Event.foldl_onRow_removed hidle] at hfold
  exact hfold

/-- A transaction can delete every row on a page that it has changed. -/
theorem deleteTuple_of_pending (h : e.Sound) (hshaped : e.WellShaped) (hr : e.InRange) (hp : e.Pending txn r.page)
    (hrow : (e.row? r).isSome) : (e.deleteTuple txn (some r)).2 = .ok () := by
  obtain ⟨copy, hcopy, _⟩ := hp.copy?
  have hfound := found?_of_copy hcopy
  have hb := h.backed _ _ hcopy
  obtain ⟨table, ht, _⟩ := hb.schema
  rw [h.sane.id_of_copy? hcopy] at ht
  have hkey := h.keyed _ _ ht
  rw [h.row?_of_copy hcopy rfl, Option.isSome_map] at hrow
  have hdeletes := deletes_deleteTuple hshaped h.plain txn r
  generalize e.deleteTuple txn (some r) = outcome at hdeletes ⊢
  cases hdeletes with
  | freed => rfl
  | refused hcause =>
    exfalso
    cases hcause with
    | noTable ht' => cases ht.symm.trans ht'
    | noPage ht' hout =>
      cases ht.symm.trans ht'
      obtain ⟨count, _, hcount, hpages⟩ := h.pages hr ht
      have hlt := (hpages r.page.number).mp hb.on_file
      rcases hout with hne | hle
      · exact hne hkey.symm
      · omega
    | unfetched hget =>
      obtain ⟨_, f, hgot⟩ := hp.getPage .readWrite
      rw [hgot] at hget
      cases hget
    | noSlot hfound' hslot =>
      cases hfound.symm.trans hfound'
      rw [Page.tuple?, List.getElem?_eq_none hslot] at hrow
      cases hrow
    | noRow hfound' _ hnone =>
      cases hfound.symm.trans hfound'
      rw [hnone] at hrow
      cases hrow

end Sound

/-- As long as page numbers last, in every state that a store over empty files of its own can reach: an insert that
succeeds adds one entry at the least record id without one, puts a new page behind the others when all are full and
then takes its first slot, and changes no other entry. A delete that succeeds takes out the entry at its record id, which
was there, and changes no other. The page of the entry is in memory, marked by the transaction and locked by it alone. So
whoever deletes at the record id of an insert that came just before restores the map, and the same transaction can do it
as long as there are numbers for all pages. -/
theorem table_changes_exact (e : Engine) (hfresh : e.Fresh) (as : List Action) (hbuilt : ∀ a ∈ as, a.Built)
    (hrange : (e.acts as).InRange) :
    (∀ txn id t, (∃ schema values, Tuple.ofValues schema values = .ok t) →
      ((e.acts as).insertTuple txn id t).2 = .ok () →
      ∃ table r e', e.catalog.table? id = .ok table ∧ (e.acts as).insertTuple txn id t = (e', .ok ()) ∧
        (e.acts as).Inserted txn table t r e' ∧
        (∀ other, (e'.deleteTuple other (some r)).2 = .ok () →
          ∀ q, (e'.deleteTuple other (some r)).1.row? q = (e.acts as).row? q) ∧
        (e'.InRange → (e'.deleteTuple txn (some r)).2 = .ok ())) ∧
    ∀ txn record, ((e.acts as).deleteTuple txn record).2 = .ok () →
      ∃ r, record = some r ∧ (e.acts as).Removed txn r ((e.acts as).deleteTuple txn record).1 := by
  have hsound := hfresh.sound.acts hbuilt hrange
  have hfirm := hfresh.opened.firm.acts as
  refine ⟨fun txn id t hb hok => ?_, fun txn record hok => hsound.removed_of_ok hfirm.proper hok⟩
  cases ht : (e.acts as).catalog.table? id with
  | error err =>
    unfold insertTuple at hok
    rw [ht] at hok
    cases hok
  | ok table =>
    obtain ⟨r, hi⟩ := hsound.inserted_of_ok hfirm.proper hrange ht hb hok
    have hsound' : ((e.acts as).insertTuple txn id t).1.Sound := hsound.act (a := .ask (.insert txn id t)) hb hrange
    have hproper' : ((e.acts as).insertTuple txn id t).1.locks.Proper := (hfirm.act (.ask (.insert txn id t))).proper
    have hshaped : ((e.acts as).insertTuple txn id t).1.WellShaped :=
      (hfresh.opened.wellShaped_acts as).along (path_act (e.acts as) (.ask (.insert txn id t)))
    rw [(path_acts e as).fixed.1] at ht
    generalize (e.acts as).insertTuple txn id t = outcome at hok hi hsound' hproper' hshaped ⊢
    obtain ⟨e', result⟩ := outcome
    change result = _ at hok
    subst hok
    refine ⟨table, r, e', ht, rfl, hi, fun other hd q => ?_, fun hr => ?_⟩
    · obtain ⟨r', hr', hremoved⟩ := hsound'.removed_of_ok hproper' hd
      cases hr'
      exact hi.undone hremoved q
    · refine hsound'.deleteTuple_of_pending hshaped hr hi.pending ?_
      rw [hi.rows, if_pos rfl]
      rfl

def filledPage : Engine := narrow.acts [.ask (.insert ⟨1⟩ ⟨0⟩ (flagRow true)), .ask (.commit ⟨1⟩ .asListed),
  .ask (.flushAll .asListed)]

/-- In memory for one page a row goes to a new page when the first one is full, and that page gives way to it. The row can
be taken back, and so can the first one be removed in its place. -/
theorem table_changes_exact_of_full_page :
    (∃ r e', filledPage.insertTuple ⟨2⟩ ⟨0⟩ (flagRow false) = (e', .ok ()) ∧
      filledPage.Inserted ⟨2⟩ (singleTable flagSchema) (flagRow false) r e' ∧
      (e'.deleteTuple ⟨2⟩ (some r)).2 = .ok () ∧ ∀ q, (e'.deleteTuple ⟨2⟩ (some r)).1.row? q = filledPage.row? q) ∧
    filledPage.Removed ⟨2⟩ ⟨⟨⟨0⟩, 0⟩, 0⟩ (filledPage.deleteTuple ⟨2⟩ (some ⟨⟨⟨0⟩, 0⟩, 0⟩)).1 := by
  have hbuilt : ∀ b, ∃ schema values, Tuple.ofValues schema values = .ok (flagRow b) := fun b =>
    ⟨flagSchema, [.boolean b], rfl⟩
  have hchanges := table_changes_exact narrow (fresh_single (by decide) _ _) [.ask (.insert ⟨1⟩ ⟨0⟩ (flagRow true)),
    .ask (.commit ⟨1⟩ .asListed), .ask (.flushAll .asListed)]
    (List.forall_mem_cons.mpr ⟨hbuilt true, List.forall_mem_cons.mpr ⟨trivial, List.forall_mem_singleton.mpr trivial⟩⟩)
    (inRange_single (by decide +kernel))
  have hrange : (narrow.acts ([.ask (.insert ⟨1⟩ ⟨0⟩ (flagRow true)), .ask (.commit ⟨1⟩ .asListed),
      .ask (.flushAll .asListed)] ++ [.ask (.insert ⟨2⟩ ⟨0⟩ (flagRow false))])).InRange :=
    inRange_single (by decide +kernel)
  rw [acts_append] at hrange
  change (filledPage.insertTuple ⟨2⟩ ⟨0⟩ (flagRow false)).1.InRange at hrange
  refine ⟨?_, ?_⟩
  · obtain ⟨table, r, e', ht, hinsert, hi, hrestores, hdelete⟩ := hchanges.1 ⟨2⟩ ⟨0⟩ (flagRow false) (hbuilt false) rfl
    obtain ⟨_, rfl⟩ := table?_single.mp ht
    have hok := hdelete (by rwa [show filledPage.insertTuple ⟨2⟩ ⟨0⟩ (flagRow false) = _ from hinsert] at hrange)
    exact ⟨r, e', hinsert, hi, hok, hrestores ⟨2⟩ hok⟩
  · obtain ⟨r, hr, hremoved⟩ := hchanges.2 ⟨2⟩ (some ⟨⟨⟨0⟩, 0⟩, 0⟩) rfl
    cases hr
    exact hremoved

/-- Once all page numbers are given out a row may come to lie in a slot that was not free, and nowhere else. -/
theorem insert_overwrites_past_last :
    ¬ ∀ e : Engine, e.Fresh →
      (∀ id table, e.catalog.table? id = .ok table → 0 < table.schema.slotCount e.pageSize) →
      ∀ as : List Action, (∀ a ∈ as, a.Built) → ∀ txn (table : Table) t, e.catalog.table? table.id = .ok table →
        (∃ schema values, Tuple.ofValues schema values = .ok t) →
        ((e.acts as).insertTuple txn table.id t).2 = .ok () →
        ∃ r, (e.acts as).FreeFrom table 0 r ∧
          ∀ q, ((e.acts as).insertTuple txn table.id t).1.row? q = if r = q then some t.encode else (e.acts as).row? q := by
  intro hall
  have hfresh : narrow.Fresh := fresh_single Nat.two_pos ⟨1, 2, none⟩ flagSchema
  have htable : narrow.catalog.table? ⟨0⟩ = .ok (singleTable flagSchema) := table?_single.mpr ⟨rfl, rfl⟩
  have hrow : ∃ schema values, Tuple.ofValues schema values = .ok (flagRow true) := ⟨flagSchema, [.boolean true], rfl⟩
  obtain ⟨ts, hbuilt, hsettled, hlength, hfirst⟩ := hfresh.filled_up (fun _ _ => rfl) Nat.one_pos htable
    (fun id other ht => (table?_single.mp ht).2) rfl hrow rfl
  have hsize := (path_acts narrow (ts.flatMap (Transaction.actions (singleTable flagSchema)))).fixed.2.1
  obtain ⟨hok, hlost⟩ := hsettled.overwritten_past_last (by rw [hlength, hsize]) (by rw [hsize]; rfl) hfirst
    (t := flagRow true) rfl
    (Tuple.fits_of_ofValues (show Tuple.ofValues flagSchema [.boolean true] = .ok (flagRow true) from rfl)) ⟨2⟩
  have hlast := acts_append narrow (ts.flatMap (Transaction.actions (singleTable flagSchema)))
    [.ask (.discard ⟨⟨0⟩, 0⟩)]
  have hactions : ∀ a ∈ ts.flatMap (Transaction.actions (singleTable flagSchema)) ++ [.ask (.discard ⟨⟨0⟩, 0⟩)],
      a.Built := by
    refine List.forall_mem_append.mpr ⟨fun a ha => ?_, List.forall_mem_singleton.mpr trivial⟩
    obtain ⟨u, hu, hm⟩ := List.mem_flatMap.mp ha
    exact (hbuilt u hu).of_mem_actions hm
  obtain ⟨r, hfree, hrows⟩ := hall narrow hfresh (fun id table ht => by rw [(table?_single.mp ht).2]; decide) _ hactions
    ⟨2⟩ (singleTable flagSchema) (flagRow true) htable hrow (by rw [hlast]; exact hok)
  rw [hlast] at hfree hrows
  have hgone := (hrows r).symm.trans (hlost r hfree)
  rw [if_pos rfl] at hgone
  cases hgone

end RowStore.Engine
