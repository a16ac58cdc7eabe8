import RowStore.Proofs.Endings

/-!
# Transactions one after another

When transactions follow one another on a fresh table, each ending in a commit and a flush or in an abort, the table
is a plain map from record ids to rows. Within a transaction every insert that succeeds adds a row at the least free
record id and every delete that succeeds takes one away; a commit keeps what was done and an abort forgets it. What
fails leaves the map alone. After every transaction a scan gets through and gives out exactly the rows of the map in
order.
-/

namespace RowStore

/-- What a transaction does with its table: an insert, a delete, a pull at a scan in any position, or a whole scan. -/
inductive Work where
  | insert (tuple : Tuple)
  | delete (record : Option RecordId)
  | next (cursor : Option Cursor)
  | scan

namespace Work

def action (table : Table) (txn : TxnId) : Work → Action
  | insert tuple => .ask (.insert txn table.id tuple)
  | delete record => .ask (.delete txn record)
  | next cursor => .next ⟨table, txn, cursor⟩
  | scan => .scan txn table.id

end Work

/-- A transaction on one table that ends in a commit, after which everything is flushed, or in an abort. -/
structure Transaction where
  id : TxnId
  work : List Work
  commits : Bool
  sweep : Sweep
  flush : Sweep

namespace Transaction

/-- What a transaction asks of the engine, from its first work to its end. -/
def actions (table : Table) (t : Transaction) : List Action :=
  t.work.map (Work.action table t.id) ++
    if t.commits then [.ask (.commit t.id t.sweep), .ask (.flushAll t.flush)] else [.ask (.abort t.id t.sweep)]

def Built (t : Transaction) : Prop :=
  ∀ tuple, .insert tuple ∈ t.work → ∃ schema values, Tuple.ofValues schema values = .ok tuple

end Transaction

/-- The plain map after a piece of work, of which only a success counts. -/
def Rows.after (rows : Rows) (table : TableId) (slots : Nat) : Work → Bool → Rows
  | .insert tuple, true => rows.insert (rows.free table slots) tuple.encode
  | .delete (some r), true => rows.erase r
  | _, _ => rows

def Rows.On (rows : Rows) (table : TableId) : Prop := ∀ r bytes, rows.find? r = some bytes → r.page.table = table

theorem Rows.On.after {rows : Rows} {table : TableId} (h : rows.On table) (slots : Nat) (w : Work) (ok : Bool) :
    (rows.after table slots w ok).On table := by
  intro r bytes hr
  unfold Rows.after at hr
  split at hr
  · rw [Dict.find?_insert] at hr
    split at hr
    · rename_i hfree
      rw [← hfree]
      rfl
    · exact h r bytes hr
  · rw [Dict.find?_erase] at hr
    split at hr
    · cases hr
    · exact h r bytes hr
  · exact h r bytes hr

namespace Engine

def succeeds (e : Engine) (table : Table) (txn : TxnId) : Work → Bool
  | .insert tuple => (e.insertTuple txn table.id tuple).2.isOk
  | .delete record => (e.deleteTuple txn record).2.isOk
  | .next cursor => (e.nextTuple ⟨table, txn, cursor⟩).2.2.isOk
  | .scan => (e.scanAll txn table.id).2.isOk

/-- The plain map after the work of a transaction. -/
def worked (table : Table) (txn : TxnId) : List Work → Engine → Rows → Rows
  | [], _, rows => rows
  | w :: rest, e, rows =>
    worked table txn rest (e.act (w.action table txn))
      (rows.after table.id (table.schema.slotCount e.pageSize) w (e.succeeds table txn w))

/-- The plain map after transactions that follow one another. -/
def committed (table : Table) : List Transaction → Engine → Rows → Rows
  | [], _, rows => rows
  | t :: rest, e, rows =>
    committed table rest (e.acts (t.actions table)) (if t.commits then worked table t.id t.work e rows else rows)

theorem committed_append (table : Table) (ts us : List Transaction) (e : Engine) (rows : Rows) :
    committed table (ts ++ us) e rows =
      committed table us (e.acts (ts.flatMap (Transaction.actions table))) (committed table ts e rows) := by
  induction ts generalizing e rows with
  | nil => rfl
  | cons t rest ih =>
    rw [List.cons_append, committed, ih, List.flatMap_cons, acts_append]
    rfl

theorem on_worked {table : Table} {txn : TxnId} {rows : Rows} (h : rows.On table.id) (ws : List Work) (e : Engine) :
    (worked table txn ws e rows).On table.id := by
  induction ws generalizing e rows with
  | nil => exact h
  | cons w rest ih => exact ih (h.after _ w _) _

theorem on_committed {table : Table} {rows : Rows} (h : rows.On table.id) (ts : List Transaction) (e : Engine) :
    (committed table ts e rows).On table.id := by
  induction ts generalizing e rows with
  | nil => exact h
  | cons t rest ih =>
    refine ih ?_ _
    split
    · exact on_worked h t.work e
    · exact h

end Engine

/-! ## Work -/

namespace Event

/-- Events of the work of a transaction on plain tables. -/
def OfWork (txn : TxnId) : Event → Prop
  | granted t _ _ => t = txn
  | stored t _ _ => t = txn
  | removed t _ => t = txn
  | appended _ => True
  | _ => False

theorem foldl_onRow_saved {l : List Event} {txn : TxnId} (hl : ∀ event ∈ l, event.OfWork txn) (r : RecordId)
    (row : Option Bytes × Option Bytes) : (l.foldl (onRow r) row).2 = row.2 := by
  induction l generalizing row with
  | nil => rfl
  | cons event rest ih =>
    obtain ⟨hhead, hrest⟩ := List.forall_mem_cons.mp hl
    refine (ih hrest _).trans ?_
    cases event with
    | stored t r' tuple =>
      show (if r' = r then (some tuple.encode, row.2) else row).2 = row.2
      split <;> rfl
    | removed t r' =>
      show (if r' = r then (none, row.2) else row).2 = row.2
      split <;> rfl
    | granted | appended => rfl
    | based | written | restored | discarded | handed | completed | released => exact hhead.elim

theorem foldl_onMark_work {l : List Event} {txn : TxnId} (hl : ∀ event ∈ l, event.OfWork txn) {page : PageId}
    {mark : Option TxnId} (hm : ∀ other, mark = some other → other = txn) (other : TxnId)
    (h : l.foldl (onMark page) mark = some other) : other = txn := by
  induction l generalizing mark with
  | nil => exact hm other h
  | cons event rest ih =>
    obtain ⟨hhead, hrest⟩ := List.forall_mem_cons.mp hl
    refine ih hrest (fun t ht => ?_) h
    rcases onMark_eq_some ht with ⟨r, _, ⟨tuple, rfl⟩ | rfl⟩ | hold
    · exact hhead
    · exact hhead
    · exact hm t hold

end Event

namespace Engine

variable {e : Engine} {table : Table} {txn : TxnId} {saved rows : Rows}

/-- A store in which one transaction is at work alone, seen as a plain map that it works on and one that is saved. -/
structure Working (e : Engine) (table : Table) (txn : TxnId) (saved rows : Rows) : Prop extends Steady e where
  on_table : e.catalog.table? table.id = .ok table
  alone : ∀ other page, other ≠ txn → e.locks.modeOf? other page = none
  marked : ∀ page other, e.mark? page = some other → other = txn
  unwritten : e.pool.writing = []
  capacity_pos : 0 < e.pool.capacity
  saves : ∀ r, e.saved? r = saved.find? r
  agrees : ∀ r, e.row? r = rows.find? r

namespace Working

/-- The least free record id of the store is that of the plain map. -/
theorem free_eq (h : e.Working table txn saved rows) {r : RecordId} (hr : e.FreeFrom table 0 r) :
    rows.free table.id (table.schema.slotCount e.pageSize) = r := by
  rw [← hr.on_table]
  refine Rows.free_eq hr.slot_lt (by rw [← h.agrees]; exact hr.free) fun q hq hslot hb => ?_
  rw [← h.agrees]
  obtain ⟨⟨qt, qn⟩, slot⟩ := q
  have hqt : qt = table.id := hq.trans hr.on_table
  subst hqt
  rcases hb with hlt | ⟨heq, hlt⟩
  · exact hr.pages qn (Nat.zero_le _) hlt slot hslot
  · have hpage : (⟨table.id, qn⟩ : PageId) = r.page := by
      rw [show qn = r.page.number from heq, ← hr.on_table]
    rw [hpage]
    exact hr.slots slot hlt

/-- Events of the transaction's own work leave everything but its rows as it was. -/
theorem of_events (h : e.Working table txn saved rows) {a : Action} (ha : a.Built) (hr : e.InRange)
    {rows' : Rows} (hl : ∀ event ∈ e.events a, event.OfWork txn)
    (hrows : ∀ r, ((e.events a).foldl (Event.onRow r) (e.row? r, e.saved? r)).1 = rows'.find? r) :
    (e.act a).Working table txn saved rows' where
  toSteady := h.act ha hr
  on_table := by rw [(path_act e a).fixed.1]; exact h.on_table
  alone := by
    obtain ⟨hadmits, hlocks⟩ := h.locks a
    rw [hlocks]
    exact h.proper.alone_foldl_after hadmits (fun _ _ _ hm => hl _ hm) h.alone
  marked := by
    intro page other hm
    rw [(ranged_act hr a).marks h.toSound (h.fair ha)] at hm
    exact Event.foldl_onMark_work hl (h.marked page) other hm
  unwritten := (path_act e a).pool_fixed.2.trans h.unwritten
  capacity_pos := by rw [(path_act e a).pool_fixed.1]; exact h.capacity_pos
  saves := by
    intro r
    have hfold := (ranged_act hr a).rows h.toSound (h.fair ha) r
    rw [← h.saves]
    exact (congrArg Prod.snd hfold).trans (Event.foldl_onRow_saved hl r _)
  agrees := by
    intro r
    rw [← hrows r, ← (ranged_act hr a).rows h.toSound (h.fair ha) r]

/-- What only takes locks changes no row. -/
theorem of_grants (h : e.Working table txn saved rows) {a : Action} (ha : a.Built) (hr : e.InRange)
    (hl : ∀ event ∈ e.events a, ∃ page mode, event = .granted txn page mode) :
    (e.act a).Working table txn saved rows := by
  refine h.of_events ha hr (fun event hm => ?_) fun r => ?_
  · obtain ⟨_, _, rfl⟩ := hl event hm
    rfl
  · rw [Event.foldl_onRow_idle fun event hm => ?_]
    · exact h.agrees r
    · obtain ⟨_, _, rfl⟩ := hl event hm
      trivial

theorem insert (h : e.Working table txn saved rows) {tuple : Tuple}
    (hb : ∃ schema values, Tuple.ofValues schema values = .ok tuple)
    (hr : e.InRange) :
    (e.act (Work.action table txn (.insert tuple))).Working table txn saved
      (rows.after table.id (table.schema.slotCount e.pageSize) (.insert tuple)
        (e.succeeds table txn (.insert tuple))) := by
  refine h.of_events (a := .ask (.insert txn table.id tuple)) hb hr
    (forall_insertEvents h.plain h.sane (fun _ _ => rfl) (fun _ => rfl) fun _ => trivial) fun q => ?_
  have hstores := h.insertTuple_stores hr h.on_table txn tuple
  show ((e.insertEvents txn table.id tuple).foldl (Event.onRow q) (e.row? q, e.saved? q)).1 =
    (rows.after table.id _ (.insert tuple) (e.insertTuple txn table.id tuple).2.isOk).find? q
  generalize (e.insertTuple txn table.id tuple).2 = result at hstores ⊢
  cases result with
  | error err =>
    rw [Event.foldl_onRow_idle hstores]
    exact h.agrees q
  | ok _ =>
    obtain ⟨before, r, hl, hidle, hfree⟩ := hstores
    show _ = (rows.insert (rows.free table.id _) tuple.encode).find? q
    rw [hl, Event.foldl_onRow_stored hidle, h.agrees, h.free_eq hfree, Dict.find?_insert]

theorem delete (h : e.Working table txn saved rows) {record : Option RecordId}
    (hr : e.InRange) :
    (e.act (Work.action table txn (.delete record))).Working table txn saved
      (rows.after table.id (table.schema.slotCount e.pageSize) (.delete record)
        (e.succeeds table txn (.delete record))) := by
  refine h.of_events (a := .ask (.delete txn record)) trivial hr
    (forall_deleteEvents h.plain h.sane (fun _ _ => rfl) fun _ _ => rfl) fun q => ?_
  have hremoves := h.deleteTuple_removes txn record
  show ((e.deleteEvents txn record).foldl (Event.onRow q) (e.row? q, e.saved? q)).1 =
    (rows.after table.id _ (.delete record) (e.deleteTuple txn record).2.isOk).find? q
  generalize (e.deleteTuple txn record).2 = result at hremoves ⊢
  cases result with
  | error err =>
    rw [Event.foldl_onRow_idle hremoves]
    cases record <;> exact h.agrees q
  | ok _ =>
    obtain ⟨before, r, rfl, hl, hidle, _⟩ := hremoves
    show _ = (rows.erase r).find? q
    rw [hl, Event.foldl_onRow_removed hidle, h.agrees, Dict.find?_erase]

/-- Each piece of work does to the store what it does to the plain map. -/
theorem act_work (h : e.Working table txn saved rows) {w : Work}
    (hb : ∀ tuple, w = .insert tuple → ∃ schema values, Tuple.ofValues schema values = .ok tuple)
    (hr : e.InRange) :
    (e.act (w.action table txn)).Working table txn saved
      (rows.after table.id (table.schema.slotCount e.pageSize) w (e.succeeds table txn w)) := by
  cases w with
  | insert tuple => exact h.insert (hb tuple rfl) hr
  | delete record => exact h.delete hr
  | next cursor =>
    refine h.of_grants (a := .next ⟨table, txn, cursor⟩) trivial hr fun event hm => ?_
    have hk := mayLeave_of_mem_events event hm
    cases event <;> first | exact hk.elim | exact ⟨_, _, by rw [hk.1]⟩
  | scan =>
    refine h.of_grants (a := .scan txn table.id) trivial hr fun event hm => ?_
    have hk := mayLeave_of_mem_events event hm
    cases event <;> first | exact hk.elim | exact ⟨_, _, by rw [hk.1]⟩

theorem acts_work (h : e.Working table txn saved rows) {ws : List Work}
    (hb : ∀ tuple, .insert tuple ∈ ws → ∃ schema values, Tuple.ofValues schema values = .ok tuple)
    (hr : (e.acts (ws.map (Work.action table txn))).InRange) :
    (e.acts (ws.map (Work.action table txn))).Working table txn saved (worked table txn ws e rows) := by
  induction ws generalizing e rows with
  | nil => exact h
  | cons w rest ih =>
    have hr₁ := (path_acts e ((w :: rest).map (Work.action table txn))).inRange hr
    refine ih (h.act_work (fun tuple he => hb tuple ?_) hr₁) (fun tuple hm => hb tuple (List.mem_cons_of_mem w hm)) hr
    rw [he]
    exact List.mem_cons_self

end Working

/-! ## Ends -/

/-- A store between two transactions, seen as a plain map. -/
structure Settled (e : Engine) (table : Table) (rows : Rows) : Prop extends Steady e where
  on_table : e.catalog.table? table.id = .ok table
  unlocked : ∀ txn page, e.locks.modeOf? txn page = none
  unmarked : ∀ page, e.mark? page = none
  unwritten : e.pool.writing = []
  capacity_pos : 0 < e.pool.capacity
  agrees : ∀ r, e.row? r = rows.find? r

theorem Settled.working (h : e.Settled table rows) (txn : TxnId) : e.Working table txn rows rows where
  toSteady := h.toSteady
  on_table := h.on_table
  alone := fun other page _ => h.unlocked other page
  marked := fun page other hm => by
    rw [h.unmarked] at hm
    cases hm
  unwritten := h.unwritten
  capacity_pos := h.capacity_pos
  saves := fun r => by rw [← h.row?_of_unmarked (h.unmarked r.page), h.agrees]
  agrees := h.agrees

namespace Working

/-- An abort brings the saved map back. -/
theorem abort (h : e.Working table txn saved rows) (sweep : Sweep) :
    (e.act (.ask (.abort txn sweep))).Settled table saved where
  toSteady := h.toSteady.abort txn sweep
  on_table := by rw [(path_act e _).fixed.1]; exact h.on_table
  unlocked := h.unlocked_of_ends rfl h.alone
  unmarked := h.unmarked_abort sweep h.marked
  unwritten := (path_act e _).pool_fixed.2.trans h.unwritten
  capacity_pos := by rw [(path_act e _).pool_fixed.1]; exact h.capacity_pos
  agrees := by
    intro r
    rw [h.row_abort, ← h.saves]
    split
    · rfl
    · rename_i hm
      refine h.row?_of_unmarked ?_
      cases hmark : e.mark? r.page with
      | none => rfl
      | some other => exact absurd (by rw [hmark, h.marked _ other hmark]) hm

/-- A commit and a flush keep the map that was worked on. -/
theorem commit (h : e.Working table txn saved rows) (sweep flush : Sweep) :
    ((e.act (.ask (.commit txn sweep))).act (.ask (.flushAll flush))).Settled table rows := by
  have h₁ : (e.act (.ask (.commit txn sweep))).Steady :=
    h.act_of_not_appended trivial fun _ hm => mayLeave_of_mem_events _ hm
  have hunlocked := h.unlocked_of_ends (a := .ask (.commit txn sweep)) rfl h.alone
  have hrow := h.row?_passive (a := .ask (.commit txn sweep)) trivial
  have hpath := path_act e (.ask (.commit txn sweep))
  generalize e.act (.ask (.commit txn sweep)) = e₁ at h₁ hunlocked hrow hpath ⊢
  have hpath₁ := hpath.trans (path_act e₁ (.ask (.flushAll flush)))
  refine ⟨?_, ?_, ?_, h₁.unmarked_flushAll flush, ?_, ?_, ?_⟩
  · exact h₁.act_of_not_appended trivial fun _ hm => mayLeave_of_mem_events _ hm
  · rw [hpath₁.fixed.1]
    exact h.on_table
  · intro other page
    rw [(h₁.locks (.ask (.flushAll flush))).2, LockTable.foldl_after_same]
    · exact hunlocked other page
    · exact forall_writeAllEvents (fun _ _ => rfl) _ e₁
  · exact hpath₁.pool_fixed.2.trans h.unwritten
  · rw [hpath₁.pool_fixed.1]
    exact h.capacity_pos
  · intro r
    rw [h₁.row?_passive (a := .ask (.flushAll flush)) trivial, hrow]
    exact h.agrees r

end Working

namespace Settled

/-- A transaction leaves the store settled, with its work if it commits and as it was if it aborts. -/
theorem transact (h : e.Settled table rows) (t : Transaction) (hb : t.Built)
    (hr : (e.acts (t.actions table)).InRange) :
    (e.acts (t.actions table)).Settled table (if t.commits then worked table t.id t.work e rows else rows) := by
  unfold Transaction.actions at hr ⊢
  rw [acts_append] at hr ⊢
  have hwork := (h.working t.id).acts_work hb ((path_acts _ _).inRange hr)
  cases t.commits with
  | true => exact hwork.commit t.sweep t.flush
  | false => exact hwork.abort t.sweep

theorem transacts (h : e.Settled table rows) (ts : List Transaction) (hb : ∀ t ∈ ts, t.Built)
    (hr : (e.acts (ts.flatMap (Transaction.actions table))).InRange) :
    (e.acts (ts.flatMap (Transaction.actions table))).Settled table (committed table ts e rows) := by
  induction ts generalizing e rows with
  | nil => exact h
  | cons t rest ih =>
    rw [List.flatMap_cons, acts_append] at hr ⊢
    exact ih (h.transact t (hb t List.mem_cons_self) ((path_acts _ _).inRange hr))
      (fun u hu => hb u (List.mem_cons_of_mem t hu)) hr

theorem quiet (h : e.Settled table rows) (reader : TxnId) : e.Quiet reader where
  alone := fun other page _ => h.unlocked other page
  unmarked := h.unmarked
  unwritten := h.unwritten
  capacity_pos := h.capacity_pos

end Settled

theorem Fresh.settled (h : e.Fresh) (hf : e.Faultless) (hc : 0 < e.pool.capacity)
    (ht : e.catalog.table? table.id = .ok table) : e.Settled table .empty where
  toSteady := h.steady hf
  on_table := ht
  unlocked := fun txn page => by
    rw [h.locks]
    rfl
  unmarked := fun page => by
    unfold mark?
    rw [h.copy?]
    rfl
  unwritten := by
    obtain ⟨capacity, k, hp⟩ := h.pool
    rw [hp]
    rfl
  capacity_pos := hc
  agrees := fun r => (h.steady hf).row?_of_no_image (h.image? r.page)

/-- Transactions that follow one another on a fresh table do what they do to a plain map: after the last of them a
scan by anybody gets through and gives out exactly the rows of the map, in the order of their record ids. -/
theorem serial_scan_eq_plain (e : Engine) (hfresh : e.Fresh) (hfaults : e.Faultless) (hcapacity : 1 ≤ e.pool.capacity)
    (table : Table) (htable : e.catalog.table? table.id = .ok table) (ts : List Transaction)
    (hbuilt : ∀ t ∈ ts, t.Built) (hrange : (e.acts (ts.flatMap (Transaction.actions table))).InRange)
    (reader : TxnId) :
    ∃ rows, (∀ pulls, rows.length < pulls →
        drain pulls (e.acts (ts.flatMap (Transaction.actions table)))
          ((Scan.new table reader).openAt (e.acts (ts.flatMap (Transaction.actions table)))) = .ok rows) ∧
      rows.Pairwise Tuple.Before ∧ ∀ r bytes, (committed table ts e .empty).find? r = some bytes ↔
        ∃ t ∈ rows, t.record = some r ∧ t.encode = bytes := by
  have hsettled := (hfresh.settled hfaults hcapacity htable).transacts ts hbuilt hrange
  obtain ⟨rows, hdrain, hordered, hrows⟩ := hsettled.scan_lists hrange (hsettled.quiet reader) hsettled.on_table
  refine ⟨rows, hdrain, hordered, fun r bytes => ?_⟩
  rw [hrows, hsettled.agrees]
  exact ⟨fun hr => ⟨on_committed (show Rows.On .empty table.id from nofun) ts e r bytes hr, hr⟩, And.right⟩

/-- One transaction commits a row and another gives one up, over a pool of one page: the scan finds the first. -/
theorem committed_row_scanned :
    ∃ rows, (∀ pulls, rows.length < pulls →
      drain pulls ((single 4 ⟨1, 2, none⟩ flagSchema).acts
          ([⟨⟨1⟩, [.insert (flagRow true)], true, .asListed, .asListed⟩,
            ⟨⟨2⟩, [.insert (flagRow false), .scan], false, .asListed, .asListed⟩].flatMap
              (Transaction.actions (singleTable flagSchema))))
        ((Scan.new (singleTable flagSchema) ⟨3⟩).openAt ((single 4 ⟨1, 2, none⟩ flagSchema).acts
          ([⟨⟨1⟩, [.insert (flagRow true)], true, .asListed, .asListed⟩,
            ⟨⟨2⟩, [.insert (flagRow false), .scan], false, .asListed, .asListed⟩].flatMap
              (Transaction.actions (singleTable flagSchema))))) = .ok rows) ∧
      ∃ t ∈ rows, t.record = some ⟨⟨⟨0⟩, 0⟩, 0⟩ ∧ t.encode = (flagRow true).encode := by
  have hbuilt : ∀ b, ∃ schema values, Tuple.ofValues schema values = .ok (flagRow b) := fun b =>
    ⟨flagSchema, [.boolean b], by cases b <;> rfl⟩
  obtain ⟨rows, hdrain, _, hrows⟩ := serial_scan_eq_plain (single 4 ⟨1, 2, none⟩ flagSchema)
    (fresh_single (by decide) _ _) (fun _ _ => rfl) (by decide) (singleTable flagSchema) (table?_single.mpr ⟨rfl, rfl⟩)
    [⟨⟨1⟩, [.insert (flagRow true)], true, .asListed, .asListed⟩,
      ⟨⟨2⟩, [.insert (flagRow false), .scan], false, .asListed, .asListed⟩]
    (by
      refine List.forall_mem_cons.mpr ⟨fun tuple hm => ?_, List.forall_mem_singleton.mpr fun tuple hm => ?_⟩
      · cases List.mem_singleton.mp hm
        exact hbuilt true
      · rcases List.mem_cons.mp hm with he | hm
        · cases he
          exact hbuilt false
        · cases List.mem_singleton.mp hm)
    (inRange_single (by decide +kernel)) ⟨3⟩
  exact ⟨rows, hdrain, (hrows _ _).mp (by decide +kernel)⟩

end Engine

end RowStore
