import RowStore.Proofs.QuietInserts
import RowStore.Proofs.SerialWork

/-!
# Full tables

A table with one row to a page can be filled up, one transaction after the other, until its file has a page for each
page number. There the count of pages starts again from zero: a scan finds nothing, and the next page that is appended
overwrites the first one, whatever copy of that is in memory.
-/

namespace RowStore

namespace Engine

variable {e : Engine} {table : Table} {txn : TxnId} {t : Tuple}

/-- A settled store with one table, whose first pages hold the one row that fits on each and are all there are. -/
structure Filled (e : Engine) (table : Table) (rows : Rows) (count : Nat) : Prop extends Settled e table rows where
  only : ∀ id other, e.catalog.table? id = .ok other → other = table
  one_row : table.schema.slotCount e.pageSize = 1
  length_eq : (e.disk.contents table.file).length = count * e.pageSize
  full : ∀ n < count, e.Full table n

namespace Filled

variable {rows : Rows} {count : Nat}

theorem inRange (h : e.Filled table rows count) (hn : count < PageFile.numbers) : e.InRange := by
  intro id other ht
  rw [h.only id other ht, h.length_eq]
  exact Nat.mul_lt_mul_of_pos_right hn h.pageSize_pos

theorem eq_of_freeFrom (h : e.Filled table rows count) (hn : count < PageFile.numbers) {r : RecordId}
    (hfree : e.FreeFrom table 0 r) : r = ⟨⟨table.id, count⟩, 0⟩ := by
  have hcount : e.disk.pageCount e.pageSize table = count := PageFile.pageCount_eq h.pageSize_pos h.length_eq hn
  have hlast := h.toSound.eq_of_full (h.inRange hn) h.on_table hfree (by rw [hcount]; exact h.full)
  rwa [hcount] at hlast

theorem insert (h : e.Filled table rows count) (txn : TxnId) (hn : count < PageFile.numbers)
    (hb : ∃ schema values, Tuple.ofValues schema values = .ok t) (hschema : t.schema = table.schema) :
    (e.act (.ask (.insert txn table.id t))).Working table txn rows (worked table txn [.insert t] e rows) ∧
      ((e.act (.ask (.insert txn table.id t))).disk.contents table.file).length = (count + 1) * e.pageSize ∧
      ∀ n < count + 1, (e.act (.ask (.insert txn table.id t))).Full table n := by
  have hr := h.inRange hn
  obtain ⟨hok, hlength⟩ := h.insertTuple_succeeds hr (h.quiet txn) h.on_table hschema
    (by rw [h.one_row]; exact Nat.zero_lt_one) h.length_eq
  have hstores := h.insertTuple_stores hr h.on_table txn t
  rw [hok] at hstores
  obtain ⟨_, r, _, _, hfree⟩ := hstores
  have hwork := (h.working txn).insert hb hr
  have hrow := hwork.agrees
  rw [show e.succeeds table txn (.insert t) = true from congrArg Except.isOk hok] at hrow
  have hs := (path_act e (.ask (.insert txn table.id t))).fixed.2.1
  have hlast := (h.working txn).free_eq hfree
  rw [h.eq_of_freeFrom hn hfree] at hlast
  refine ⟨hwork, hlength h.full, fun n hlt slot hslot => ?_⟩
  refine (congrArg Option.isSome (hrow _)).trans ?_
  show ((rows.insert (rows.free table.id _) t.encode).find? _).isSome = true
  rw [hlast, Dict.find?_insert]
  split
  · rfl
  · rename_i hne
    rw [hs] at hslot
    rw [← h.agrees]
    refine h.full n (Nat.lt_of_le_of_ne (Nat.le_of_lt_succ hlt) fun heq => hne ?_) slot hslot
    rw [h.one_row] at hslot
    rw [heq, Nat.lt_one_iff.mp hslot]

end Filled

end Engine

namespace Transaction

def inserting (txn : TxnId) (t : Tuple) (commits : Bool) : Transaction :=
  ⟨txn, [.insert t], commits, .asListed, .asListed⟩

theorem built_inserting {txn : TxnId} {t : Tuple} {commits : Bool}
    (hb : ∃ schema values, Tuple.ofValues schema values = .ok t) : (inserting txn t commits).Built := by
  intro tuple hm
  cases List.mem_singleton.mp hm
  exact hb

theorem Built.of_mem_actions {t : Transaction} (h : t.Built) {table : Table} {a : Action} (ha : a ∈ t.actions table) :
    a.Built := by
  rcases List.mem_append.mp ha with hm | hm
  · obtain ⟨w, hw, rfl⟩ := List.mem_map.mp hm
    cases w with
    | insert tuple => exact h tuple hw
    | delete | next | scan => exact trivial
  · cases hc : t.commits with
    | true =>
      rw [hc] at hm
      simp only [if_true, List.mem_cons, List.not_mem_nil, or_false] at hm
      rcases hm with rfl | rfl <;> exact trivial
    | false =>
      rw [hc] at hm
      cases List.mem_singleton.mp hm
      exact trivial

end Transaction

namespace Engine

variable {e : Engine} {table : Table} {txn : TxnId} {t : Tuple} {rows : Rows} {count : Nat}

namespace Filled

theorem commit (h : e.Filled table rows count) (txn : TxnId) (hn : count < PageFile.numbers)
    (hb : ∃ schema values, Tuple.ofValues schema values = .ok t) (hschema : t.schema = table.schema) :
    (e.acts ((Transaction.inserting txn t true).actions table)).Filled table (worked table txn [.insert t] e rows)
      (count + 1) := by
  obtain ⟨hwork, hlength, hfull⟩ := h.insert txn hn hb hschema
  have hsettled := hwork.commit .asListed .asListed
  have hsteady := hwork.toSteady
  have hagrees := hwork.agrees
  have hfixed := (path_act e (.ask (.insert txn table.id t))).fixed
  generalize worked table txn [.insert t] e rows = rows' at hsettled hagrees ⊢
  show (((e.act (.ask (.insert txn table.id t))).act (.ask (.commit txn .asListed))).act
    (.ask (.flushAll .asListed))).Filled table rows' (count + 1)
  generalize e.act (.ask (.insert txn table.id t)) = e₁ at hsettled hsteady hagrees hfixed hlength hfull ⊢
  have hkept : ∀ page, .appended page ∉ e₁.events (.ask (.commit txn .asListed)) := fun _ => mayLeave_of_mem_events _
  have hsteady₂ := hsteady.act_of_not_appended (a := .ask (.commit txn .asListed)) trivial hkept
  have hlength₂ := hsteady.length_eq_of_not_appended (a := .ask (.commit txn .asListed)) trivial hkept table.file
  have hfixed₂ := (path_act e₁ (.ask (.commit txn .asListed))).fixed
  generalize e₁.act (.ask (.commit txn .asListed)) = e₂ at hsettled hsteady₂ hlength₂ hfixed₂ ⊢
  have hlength₃ := hsteady₂.length_eq_of_not_appended (a := .ask (.flushAll .asListed)) trivial
    (fun _ => mayLeave_of_mem_events _) table.file
  have hfixed₃ := (path_act e₂ (.ask (.flushAll .asListed))).fixed
  have hsize : (e₂.act (.ask (.flushAll .asListed))).pageSize = e.pageSize := by
    rw [hfixed₃.2.1, hfixed₂.2.1, hfixed.2.1]
  refine ⟨hsettled, ?_, ?_, ?_, fun n hlt => ?_⟩
  · rw [hfixed₃.1, hfixed₂.1, hfixed.1]
    exact h.only
  · rw [hsize]
    exact h.one_row
  · rw [hlength₃, hlength₂, hlength, hsize]
  · exact (hfull n hlt).congr (fun r => (hagrees r).trans (hsettled.agrees r).symm) (hfixed.2.1.trans hsize.symm)

/-- If the transaction aborts its page stays, without a row. -/
theorem abort (h : e.Filled table rows count) (txn : TxnId) (hn : count < PageFile.numbers)
    (hb : ∃ schema values, Tuple.ofValues schema values = .ok t) (hschema : t.schema = table.schema) :
    (e.acts ((Transaction.inserting txn t false).actions table)).Settled table rows ∧
      ((e.acts ((Transaction.inserting txn t false).actions table)).disk.contents table.file).length =
        (count + 1) * e.pageSize := by
  obtain ⟨hwork, hlength, _⟩ := h.insert txn hn hb hschema
  refine ⟨hwork.abort .asListed, ?_⟩
  rw [← hlength]
  exact hwork.length_eq_of_not_appended (a := .ask (.abort txn .asListed)) trivial (fun _ => mayLeave_of_mem_events _)
    table.file

end Filled

/-- Committed transactions that insert one row each fill one page each, as long as there are page numbers. -/
theorem Settled.filled (h : e.Settled table rows) (txn : TxnId)
    (honly : ∀ id other, e.catalog.table? id = .ok other → other = table)
    (hone : table.schema.slotCount e.pageSize = 1) (hempty : (e.disk.contents table.file).length = 0)
    (hb : ∃ schema values, Tuple.ofValues schema values = .ok t) (hschema : t.schema = table.schema) {count : Nat}
    (hn : count < PageFile.numbers) :
    (e.acts ((List.replicate count (Transaction.inserting txn t true)).flatMap (Transaction.actions table))).Filled
      table (committed table (List.replicate count (Transaction.inserting txn t true)) e rows) count := by
  induction count with
  | zero => exact ⟨h, honly, hone, hempty.trans (Nat.zero_mul _).symm, nofun⟩
  | succ count ih =>
    have hfilled := ih (Nat.lt_of_succ_lt hn)
    rw [List.replicate_succ', List.flatMap_append, acts_append, List.flatMap_singleton, committed_append]
    exact hfilled.commit txn (Nat.lt_of_succ_lt hn) hb hschema

/-- Transactions that commit so many rows, and one that gives up another. -/
def fillUp (count : Nat) (t : Tuple) : List Transaction :=
  List.replicate count (.inserting ⟨1⟩ t true) ++ [.inserting ⟨1⟩ t false]

theorem Settled.filled_up (h : e.Settled table rows)
    (honly : ∀ id other, e.catalog.table? id = .ok other → other = table)
    (hone : table.schema.slotCount e.pageSize = 1) (hempty : (e.disk.contents table.file).length = 0)
    (hb : ∃ schema values, Tuple.ofValues schema values = .ok t) (hschema : t.schema = table.schema)
    (hpos : 0 < count) (hn : count < PageFile.numbers) :
    (e.acts ((fillUp count t).flatMap (Transaction.actions table))).Settled table
        (committed table (fillUp count t) e rows) ∧
      ((e.acts ((fillUp count t).flatMap (Transaction.actions table))).disk.contents table.file).length =
        (count + 1) * e.pageSize ∧
      ((committed table (fillUp count t) e rows).find? ⟨⟨table.id, 0⟩, 0⟩).isSome := by
  have hfilled := h.filled ⟨1⟩ honly hone hempty hb hschema hn
  have hsize := (path_acts e ((List.replicate count (Transaction.inserting ⟨1⟩ t true)).flatMap
    (Transaction.actions table))).fixed.2.1
  obtain ⟨hsettled, hlength⟩ := hfilled.abort ⟨1⟩ hn hb hschema
  have hrow := hfilled.full 0 hpos 0 (by rw [hfilled.one_row]; exact Nat.zero_lt_one)
  unfold fillUp
  rw [List.flatMap_append, acts_append, List.flatMap_singleton, committed_append]
  rw [hsize] at hlength
  rw [hfilled.agrees] at hrow
  exact ⟨hsettled, hlength, hrow⟩

/-- A fresh table with one row to a page can be filled up until there is a page for each page number. -/
theorem Fresh.filled_up (h : e.Fresh) (hf : e.Faultless) (hc : 0 < e.pool.capacity)
    (ht : e.catalog.table? table.id = .ok table) (honly : ∀ id other, e.catalog.table? id = .ok other → other = table)
    (hone : table.schema.slotCount e.pageSize = 1) (hb : ∃ schema values, Tuple.ofValues schema values = .ok t)
    (hschema : t.schema = table.schema) :
    ∃ ts : List Transaction, (∀ u ∈ ts, u.Built) ∧
      (e.acts (ts.flatMap (Transaction.actions table))).Settled table (committed table ts e .empty) ∧
      ((e.acts (ts.flatMap (Transaction.actions table))).disk.contents table.file).length =
        PageFile.numbers * e.pageSize ∧
      ((committed table ts e .empty).find? ⟨⟨table.id, 0⟩, 0⟩).isSome := by
  obtain ⟨count, hcount, hpos⟩ : ∃ count, count + 1 = PageFile.numbers ∧ 0 < count :=
    ⟨PageFile.numbers - 1, by decide, by decide⟩
  obtain ⟨hsettled, hlength, hrow⟩ := (h.settled hf hc ht).filled_up honly hone (h.empty _ _ ht) hb hschema hpos
    (Nat.lt_of_succ_le (Nat.le_of_eq hcount))
  rw [hcount] at hlength
  refine ⟨fillUp count t, List.forall_mem_append.mpr ⟨fun u hm => ?_, ?_⟩, hsettled, hlength, hrow⟩
  · rw [List.eq_of_mem_replicate hm]
    exact Transaction.built_inserting hb
  · exact List.forall_mem_singleton.mpr (Transaction.built_inserting hb)

/-! ## Past the last page number -/

theorem pageCount_past_last (hpos : 0 < e.pageSize)
    (hl : (e.disk.contents table.file).length = PageFile.numbers * e.pageSize) :
    e.disk.pageCount e.pageSize table = 0 := by
  unfold Disk.pageCount PageFile.pageCount
  rw [hl, Nat.mul_div_cancel _ hpos, Nat.mod_self]

theorem drain_past_last (txn : TxnId) (hcount : e.disk.pageCount e.pageSize table = 0) (pulls : Nat) :
    drain (pulls + 1) e ((Scan.new table txn).openAt e) = .ok [] := by
  unfold Scan.openAt Scan.new
  rw [hcount]
  exact @drain_of_rowsAmong e table txn 0 0 [] [] rfl (pulls + 1) (Nat.succ_pos pulls)

/-- An insert walks over no page and begins with appending one. -/
theorem insertInto_past_last (txn : TxnId) (hcount : e.disk.pageCount e.pageSize table = 0)
    (hschema : t.schema = table.schema) : e.insertInto txn table t = e.insertAtEnd txn table t := by
  unfold insertInto
  rw [if_neg fun hne => hne hschema, hcount]
  rfl

/-- An insert appends over the first page before it asks for it, and stops there if somebody else holds it. -/
theorem insertTuple_past_last (h : e.Steady) (txn : TxnId) (ht : e.catalog.table? table.id = .ok table)
    (hl : (e.disk.contents table.file).length = PageFile.numbers * e.pageSize) (hschema : t.schema = table.schema)
    (hlock : (e.locks.request txn ⟨table.id, 0⟩ .exclusive).2 = false) :
    (e.insertTuple txn table.id t).2 = .error (.transactionAborted txn) ∧
      (e.insertTuple txn table.id t).1.pool = e.pool ∧
      (e.insertTuple txn table.id t).1.image? ⟨table.id, 0⟩ = some (Bytes.zeros e.pageSize) := by
  have hcount := pageCount_past_last h.pageSize_pos hl
  obtain ⟨faults, happend⟩ := h.faultless.appendPage table
  have hrefused : ({ e with disk := (e.disk.appendPage e.pageSize table).1, faults := faults } : Engine).getPage txn
      ⟨table.id, 0⟩ .readWrite =
        ({ e with disk := (e.disk.appendPage e.pageSize table).1, faults := faults },
          .error (.transactionAborted txn)) := by
    rw [getPage_eq]
    refine if_neg ?_
    rw [show Access.readWrite.lockMode = .exclusive from rfl, hlock]
    exact Bool.false_ne_true
  have hend : e.insertAtEnd txn table t =
      ({ e with disk := (e.disk.appendPage e.pageSize table).1, faults := faults },
        .error (.transactionAborted txn)) := by
    unfold insertAtEnd
    rw [happend, hcount]
    simp only [hrefused]
  have hinsert : e.insertTuple txn table.id t =
      ({ e with disk := (e.disk.appendPage e.pageSize table).1, faults := faults },
        .error (.transactionAborted txn)) := by
    unfold insertTuple
    simp only [ht, insertInto_past_last txn hcount hschema, hend]
    rfl
  rw [hinsert]
  refine ⟨rfl, rfl, (h.toOwnFiles.image?_setContents ht _ _ ⟨table.id, 0⟩).trans ((if_pos rfl).trans ?_)⟩
  exact (PageFile.page?_append h.pageSize_pos _ 0).trans (if_pos hcount.symm)

/-- A quiet store stays quiet when a zero page comes over one that is not in memory. The rows of that page are gone. -/
theorem append_over_absent (h : e.Steady) (hq : e.Quiet txn) (ht : e.catalog.table? table.id = .ok table)
    (habsent : e.copy? ⟨table.id, e.disk.pageCount e.pageSize table⟩ = none) :
    ∃ m, e.appendPage table = (m, .ok ⟨table.id, e.disk.pageCount e.pageSize table⟩) ∧ m.Steady ∧ m.Quiet txn ∧
      m.catalog = e.catalog ∧ m.pageSize = e.pageSize ∧
      (m.image? ⟨table.id, e.disk.pageCount e.pageSize table⟩).isSome ∧
      ∀ r, m.row? r = if r.page = ⟨table.id, e.disk.pageCount e.pageSize table⟩ then none else e.row? r := by
  have hpath := path_appendPage ht
  obtain ⟨faults, happend⟩ := h.faultless.appendPage table
  rw [happend] at hpath
  refine ⟨_, happend, ⟨?_, hpath.2.faultless h.faultless, h.proper⟩,
    ⟨hq.alone, hq.unmarked, hq.unwritten, hq.capacity_pos⟩, rfl, rfl, ?_, h.toOwnFiles.row?_append ht habsent⟩
  · exact (h.append_of_absent ht habsent).of_copies rfl rfl rfl h.sane fun _ _ => .inl
  · exact Option.isSome_iff_exists.mpr ⟨_, (h.toOwnFiles.image?_append ht _).trans (if_pos rfl)⟩

/-- An insert into a quiet store succeeds while the first page is not in memory. Its row comes to lie on that page, in
the place of those that were there. -/
theorem insertTuple_over_absent (h : e.Steady) (hq : e.Quiet txn) (ht : e.catalog.table? table.id = .ok table)
    (hl : (e.disk.contents table.file).length = PageFile.numbers * e.pageSize) (hschema : t.schema = table.schema)
    (hslots : 0 < table.schema.slotCount e.pageSize) (hfits : t.Fits) (habsent : e.copy? ⟨table.id, 0⟩ = none) :
    (e.insertTuple txn table.id t).2 = .ok () ∧
      ∀ r, r.page ≠ ⟨table.id, 0⟩ → (e.insertTuple txn table.id t).1.row? r = e.row? r := by
  have hcount := pageCount_past_last h.pageSize_pos hl
  obtain ⟨m, happend, hsteady, hquiet, hc, hs, himage, hrow⟩ := append_over_absent h hq ht (by rwa [hcount])
  rw [hcount] at happend himage hrow
  rw [← hc] at ht
  have hroom : ¬ m.Full table 0 := by
    intro hfull
    have hsome := hfull 0 (by rw [hs]; exact hslots)
    rw [hrow, if_pos rfl] at hsome
    cases hsome
  obtain ⟨changed, hok⟩ := hsteady.storeAt_succeeds hquiet ht hschema himage hroom
  have hplaced := hsteady.storeAt_placed ht txn 0 t
  rw [hok] at hplaced
  obtain ⟨before, s, hevents, hidle, hfree⟩ := hplaced
  have hpage : s.page = ⟨table.id, 0⟩ := by
    have hzero : s.page.number = 0 := Nat.eq_zero_of_not_pos fun hpos => hroom (hfree.pages 0 (Nat.zero_le 0) hpos)
    rw [← hfree.on_table, ← hzero]
  have hranged := (path_storeAt m txn ⟨table.id, 0⟩ t).ranged_of_not_appended fun page hmem =>
    forall_storeAtEvents (P := (· ≠ .appended page)) nofun (fun _ => nofun) _ hmem rfl
  have hfair : ∀ event ∈ m.storeAtEvents txn ⟨table.id, 0⟩ t, event.Fair :=
    forall_storeAtEvents trivial fun _ => hfits
  rw [hc] at ht
  obtain ⟨_, replacer, hinsert⟩ := insertTuple_plain txn t h.sane ht (h.plain _ _ ht)
  rw [hinsert, insertInto_past_last txn hcount hschema, insertAtEnd_eq, happend]
  refine ⟨congrArg (Except.map fun _ => ()) hok, fun r hr => ?_⟩
  have hfold := congrArg Prod.fst (hranged.rows hsteady.toSound hfair r)
  rw [hevents, Event.foldl_onRow_stored hidle, if_neg fun he : s = r => hr (by rw [← he, hpage]), hrow,
    if_neg hr] at hfold
  exact hfold

/-- Dropping a page leaves a settled store settled. -/
theorem Settled.discard (h : e.Settled table rows) (page : PageId) :
    (e.act (.ask (.discard page))).Settled table rows := by
  have hpath := path_act e (.ask (.discard page))
  have hsteady : (e.act (.ask (.discard page))).Steady :=
    h.act_of_not_appended trivial fun _ hm => mayLeave_of_mem_events _ hm
  have hranged := hpath.ranged_of_not_appended fun _ hm => mayLeave_of_mem_events _ hm
  have hfair := h.fair (a := .ask (.discard page)) trivial
  refine ⟨hsteady, ?_, h.unlocked, fun q => ?_, hpath.pool_fixed.2.trans h.unwritten, ?_, fun r => ?_⟩
  · rw [hpath.fixed.1]
    exact h.on_table
  · rw [hranged.marks h.toSound hfair]
    show (if page = q then none else e.mark? q) = none
    rw [h.unmarked, ite_self]
  · rw [hpath.pool_fixed.1]
    exact h.capacity_pos
  · refine (congrArg Prod.fst (hranged.rows h.toSound hfair r)).trans ?_
    show (if page = r.page then (e.saved? r, e.saved? r) else (e.row? r, e.saved? r)).1 = _
    rw [← h.row?_of_unmarked (h.unmarked r.page), ite_self]
    exact h.agrees r

/-- So an insert that follows the drop of a full first page succeeds, and no free slot has got its row. -/
theorem Settled.overwritten_past_last (h : e.Settled table rows)
    (hl : (e.disk.contents table.file).length = PageFile.numbers * e.pageSize)
    (hone : table.schema.slotCount e.pageSize = 1) (hrow : (rows.find? ⟨⟨table.id, 0⟩, 0⟩).isSome)
    (hschema : t.schema = table.schema) (hfits : t.Fits) (txn : TxnId) :
    ((e.act (.ask (.discard ⟨table.id, 0⟩))).insertTuple txn table.id t).2 = .ok () ∧
      ∀ r, (e.act (.ask (.discard ⟨table.id, 0⟩))).FreeFrom table 0 r →
        ((e.act (.ask (.discard ⟨table.id, 0⟩))).insertTuple txn table.id t).1.row? r = none := by
  have hdropped := h.discard ⟨table.id, 0⟩
  have habsent : (e.act (.ask (.discard ⟨table.id, 0⟩))).copy? ⟨table.id, 0⟩ = none :=
    (Pool.copy?_discard e.pool _ _).trans (if_pos rfl)
  have hl' : ((e.act (.ask (.discard ⟨table.id, 0⟩))).disk.contents table.file).length =
      PageFile.numbers * (e.act (.ask (.discard ⟨table.id, 0⟩))).pageSize := hl
  have hone' : table.schema.slotCount (e.act (.ask (.discard ⟨table.id, 0⟩))).pageSize = 1 := hone
  generalize e.act (.ask (.discard ⟨table.id, 0⟩)) = m at hdropped habsent hl' hone' ⊢
  obtain ⟨hok, hothers⟩ := insertTuple_over_absent hdropped.toSteady (hdropped.quiet txn) hdropped.on_table hl' hschema
    (by rw [hone']; exact Nat.one_pos) hfits habsent
  refine ⟨hok, fun r hfree => ?_⟩
  have hpage : r.page ≠ ⟨table.id, 0⟩ := by
    intro hp
    have hslot : r.slot = 0 := by
      have hlt := hfree.slot_lt
      rw [hone'] at hlt
      exact Nat.lt_one_iff.mp hlt
    rw [← hdropped.agrees, ← hp, ← hslot, hfree.free] at hrow
    cases hrow
  rw [hothers r hpage, hfree.free]

/-- Where there is a page for each page number, an insert that is refused the first page has put a zero page over it
in the file. The resident copy is as it was. -/
theorem Settled.refused_past_last (h : e.Settled table rows)
    (hl : (e.disk.contents table.file).length = PageFile.numbers * e.pageSize)
    (hrow : (rows.find? ⟨⟨table.id, 0⟩, 0⟩).isSome) (hschema : t.schema = table.schema) {reader writer : TxnId}
    (hne : reader ≠ writer) {e₁ : Engine} (he : (e.getPage reader ⟨table.id, 0⟩ .readWrite).1 = e₁) :
    ∃ page, e₁.copy? ⟨table.id, 0⟩ = some page ∧ page.dirtier = none ∧
      e₁.image? ⟨table.id, 0⟩ = some page.encode ∧ page.encode ≠ Bytes.zeros e.pageSize ∧
      (e₁.insertTuple writer table.id t).2 = .error (.transactionAborted writer) ∧
      (e₁.insertTuple writer table.id t).1.pool = e₁.pool ∧
      (e₁.insertTuple writer table.id t).1.image? ⟨table.id, 0⟩ = some (Bytes.zeros e.pageSize) := by
  have himage : (e.image? ⟨table.id, 0⟩).isSome := by
    rw [@image?_of_table e ⟨table.id, 0⟩ _ h.on_table, PageFile.isSome_page?, hl, Nat.zero_mul, Nat.zero_add]
    exact Nat.le_mul_of_pos_left _ (by decide)
  obtain ⟨e₁', f, hget⟩ := (h.quiet reader).getPage_ok h.toSteady himage .readWrite
  obtain ⟨page, hpage, _⟩ := h.page_of_getPage hget
  obtain ⟨_, _, hres⟩ := getPage_ok hget
  have hlock := exclusive_of_getPage hget
  have hquiet := (h.quiet reader).getPage h.toSteady ⟨table.id, 0⟩ .readWrite
  have hsteady := h.getPage reader ⟨table.id, 0⟩ .readWrite
  have hsame := h.row?_getPage reader ⟨table.id, 0⟩ .readWrite
  obtain ⟨hc, hs, _⟩ := (path_getPage e reader ⟨table.id, 0⟩ .readWrite).fixed
  have hlength : ((e.getPage reader ⟨table.id, 0⟩ .readWrite).1.disk.contents table.file).length = _ :=
    h.length_eq_of_not_appended (a := .ask (.get reader ⟨table.id, 0⟩ .readWrite)) trivial
      (fun _ => mayLeave_of_mem_events _) table.file
  have he' : e₁' = e₁ := by rw [← he, hget]
  subst he'
  rw [he] at hquiet hsteady hsame hc hs hlength
  have hcopy : e₁'.copy? ⟨table.id, 0⟩ = some page := Pool.copy?_of_resident hres hpage
  have hclean : page.dirtier = none := by
    have hmark := hquiet.unmarked ⟨table.id, 0⟩
    unfold mark? at hmark
    rwa [hcopy] at hmark
  obtain ⟨herr, hpool, hover⟩ := insertTuple_past_last hsteady writer (by rw [hc]; exact h.on_table)
    (by rw [hlength, hl, hs]) hschema (hsteady.proper.request_conflict hne hlock (.inl rfl))
  rw [hs] at hover
  refine ⟨page, hcopy, hclean, (hsteady.backed _ _ hcopy).clean hclean, fun hzeros => ?_, herr, hpool, hover⟩
  have hlost : e₁'.row? ⟨⟨table.id, 0⟩, 0⟩ = none := by
    rw [row?, view?_of_copy hcopy, hzeros, ← hs, rowIn?_zeros]
  rw [← h.agrees, ← hsame, hlost] at hrow
  cases hrow

/-- So a resident page that is clean need not be the same as on file. -/
theorem Settled.stale_past_last (h : e.Settled table rows)
    (hl : (e.disk.contents table.file).length = PageFile.numbers * e.pageSize)
    (hrow : (rows.find? ⟨⟨table.id, 0⟩, 0⟩).isSome) (hschema : t.schema = table.schema) {reader writer : TxnId}
    (hne : reader ≠ writer) :
    ∃ page,
      (e.acts [.ask (.get reader ⟨table.id, 0⟩ .readWrite), .ask (.insert writer table.id t)]).copy? ⟨table.id, 0⟩ =
        some page ∧ page.dirtier = none ∧
      (e.acts [.ask (.get reader ⟨table.id, 0⟩ .readWrite), .ask (.insert writer table.id t)]).image? ⟨table.id, 0⟩ ≠
        some page.encode := by
  obtain ⟨page, hcopy, hclean, _, hzeros, _, hpool, hover⟩ := h.refused_past_last hl hrow hschema hne rfl
  refine ⟨page, ?_, hclean, fun himage => hzeros (Option.some.inj (himage.symm.trans hover))⟩
  show ((e.getPage reader ⟨table.id, 0⟩ .readWrite).1.insertTuple writer table.id t).1.copy? _ = _
  unfold Engine.copy?
  rw [hpool]
  exact hcopy

/-- A scan after a serial workload need not give out the rows of the plain map. -/
theorem serial_scan_ne_plain_past_last :
    ¬ ∀ e : Engine, e.Fresh → e.Faultless → 1 ≤ e.pool.capacity → ∀ table : Table,
      e.catalog.table? table.id = .ok table → 1 ≤ table.schema.slotCount e.pageSize → ∀ ts : List Transaction,
        (∀ t ∈ ts, t.Built) → ∀ reader : TxnId,
          ∃ rows, (∀ pulls, rows.length < pulls →
              drain pulls (e.acts (ts.flatMap (Transaction.actions table)))
                ((Scan.new table reader).openAt (e.acts (ts.flatMap (Transaction.actions table)))) = .ok rows) ∧
            rows.Pairwise Tuple.Before ∧ ∀ r bytes, (committed table ts e .empty).find? r = some bytes ↔
              ∃ t ∈ rows, t.record = some r ∧ t.encode = bytes := by
  intro hall
  have hfresh := fresh_single Nat.two_pos ⟨1, 2, none⟩ flagSchema
  have htable : (single 2 ⟨1, 2, none⟩ flagSchema).catalog.table? ⟨0⟩ = .ok (singleTable flagSchema) :=
    table?_single.mpr ⟨rfl, rfl⟩
  obtain ⟨ts, hbuilt, _, hlength, hrow⟩ := hfresh.filled_up (fun _ _ => rfl) Nat.one_pos htable
    (fun id other ht => (table?_single.mp ht).2) rfl (t := flagRow true) ⟨flagSchema, [.boolean true], rfl⟩ rfl
  obtain ⟨rows, hdrain, _, hrows⟩ := hall _ hfresh (fun _ _ => rfl) (Nat.le_refl 1) (singleTable flagSchema) htable
    (Nat.le_refl 1) ts hbuilt ⟨2⟩
  obtain ⟨bytes, hbytes⟩ := Option.isSome_iff_exists.mp hrow
  obtain ⟨t, hm, _⟩ := (hrows _ _).mp hbytes
  have hsize := (path_acts (single 2 ⟨1, 2, none⟩ flagSchema)
    (ts.flatMap (Transaction.actions (singleTable flagSchema)))).fixed.2.1
  have hempty := drain_past_last ⟨2⟩ (pageCount_past_last (by rw [hsize]; exact Nat.two_pos)
    (by rw [hlength, hsize])) rows.length
  rw [hdrain _ (Nat.lt_succ_self _)] at hempty
  cases hempty
  cases hm

/-- A clean page in memory need not be the same as on file. -/
theorem clean_page_stale_past_last :
    ¬ ∀ e : Engine, e.Fresh → ∀ as : List Action, (∀ a ∈ as, a.Built) → ∀ id page,
      (e.acts as).copy? id = some page → page.dirtier = none → (e.acts as).image? id = some page.encode := by
  intro hall
  have hfresh := fresh_single Nat.two_pos ⟨1, 2, none⟩ flagSchema
  have htable : (single 2 ⟨1, 2, none⟩ flagSchema).catalog.table? ⟨0⟩ = .ok (singleTable flagSchema) :=
    table?_single.mpr ⟨rfl, rfl⟩
  have hrow : ∃ schema values, Tuple.ofValues schema values = .ok (flagRow true) := ⟨flagSchema, [.boolean true], rfl⟩
  obtain ⟨ts, hbuilt, hsettled, hlength, hfirst⟩ := hfresh.filled_up (fun _ _ => rfl) Nat.one_pos htable
    (fun id other ht => (table?_single.mp ht).2) rfl hrow rfl
  have hsize := (path_acts (single 2 ⟨1, 2, none⟩ flagSchema)
    (ts.flatMap (Transaction.actions (singleTable flagSchema)))).fixed.2.1
  obtain ⟨page, hcopy, hclean, hstale⟩ := hsettled.stale_past_last (t := flagRow true) (by rw [hlength, hsize])
    hfirst rfl (show (⟨2⟩ : TxnId) ≠ ⟨3⟩ by decide)
  rw [← acts_append] at hcopy hstale
  refine hstale (hall _ hfresh _ (List.forall_mem_append.mpr ⟨fun a ha => ?_, ?_⟩) _ page hcopy hclean)
  · obtain ⟨t, ht, hm⟩ := List.mem_flatMap.mp ha
    exact (hbuilt t ht).of_mem_actions hm
  · simp only [List.forall_mem_cons]
    exact ⟨trivial, hrow, List.forall_mem_nil _⟩

end Engine

end RowStore
