import RowStore.Proofs.PlainRows
import RowStore.Proofs.Steady

/-!
# Where rows go

An insert walks the pages from the first one and stores its row in the first free slot that it meets, or in the first
slot of a new page when all are full. So an insert that succeeds fills the least free record id of its table and
changes no other row, and one that fails changes no row at all, even if a page was appended on the way. A delete that
succeeds empties the slot that it was given, and one that fails changes nothing either.
-/

namespace RowStore

namespace Event

/-- An event that changes no row, saves none and marks no page. -/
def Idle : Event → Prop
  | granted _ _ _ => True
  | appended _ => True
  | based _ => True
  | completed _ => True
  | _ => False

theorem Idle.onRow {event : Event} (h : event.Idle) (r : RecordId) (row : Option Bytes × Option Bytes) :
    Event.onRow r row event = row := by
  cases event <;> first | rfl | exact h.elim

theorem Idle.fair {event : Event} (h : event.Idle) : event.Fair := by
  cases event <;> first | exact trivial | exact h.elim

theorem foldl_onRow_idle {l : List Event} (hl : ∀ event ∈ l, event.Idle) (r : RecordId)
    (row : Option Bytes × Option Bytes) : l.foldl (onRow r) row = row := by
  induction l with
  | nil => rfl
  | cons event rest ih =>
    obtain ⟨hhead, hrest⟩ := List.forall_mem_cons.mp hl
    rw [List.foldl_cons, hhead.onRow, ih hrest]

theorem foldl_onRow_stored {l : List Event} (hl : ∀ event ∈ l, event.Idle) (txn : TxnId) (r : RecordId) (t : Tuple)
    (q : RecordId) (row : Option Bytes × Option Bytes) :
    ((l ++ [stored txn r t]).foldl (onRow q) row).1 = if r = q then some t.encode else row.1 := by
  rw [List.foldl_append, foldl_onRow_idle hl]
  show (if r = q then (some t.encode, row.2) else row).1 = _
  split <;> rfl

theorem foldl_onRow_removed {l : List Event} (hl : ∀ event ∈ l, event.Idle) (txn : TxnId) (r q : RecordId)
    (row : Option Bytes × Option Bytes) :
    ((l ++ [removed txn r]).foldl (onRow q) row).1 = if r = q then none else row.1 := by
  rw [List.foldl_append, foldl_onRow_idle hl]
  show (if r = q then (none, row.2) else row).1 = _
  split <;> rfl

end Event

namespace Engine

variable {e e' : Engine} {id : TableId} {table : Table}

def Full (e : Engine) (table : Table) (n : Nat) : Prop :=
  ∀ slot < table.schema.slotCount e.pageSize, (e.row? ⟨⟨table.id, n⟩, slot⟩).isSome

/-- The least record id without a row among those on page `start` and later ones. -/
structure FreeFrom (e : Engine) (table : Table) (start : Nat) (r : RecordId) : Prop where
  on_table : r.page.table = table.id
  slot_lt : r.slot < table.schema.slotCount e.pageSize
  free : e.row? r = none
  start_le : start ≤ r.page.number
  pages : ∀ n, start ≤ n → n < r.page.number → e.Full table n
  slots : ∀ slot < r.slot, (e.row? ⟨r.page, slot⟩).isSome

theorem Full.congr {n : Nat} (h : e'.Full table n) (hrow : ∀ r, e'.row? r = e.row? r) (hs : e'.pageSize = e.pageSize) :
    e.Full table n := by
  intro slot hlt
  rw [← hrow]
  exact h slot (by rw [hs]; exact hlt)

theorem FreeFrom.congr {start : Nat} {r : RecordId} (h : e'.FreeFrom table start r) (hrow : ∀ r, e'.row? r = e.row? r)
    (hs : e'.pageSize = e.pageSize) : e.FreeFrom table start r where
  on_table := h.on_table
  slot_lt := by rw [← hs]; exact h.slot_lt
  free := by rw [← hrow]; exact h.free
  start_le := h.start_le
  pages := fun n hle hlt => (h.pages n hle hlt).congr hrow hs
  slots := fun slot hlt => by rw [← hrow]; exact h.slots slot hlt

theorem FreeFrom.back {start n : Nat} {r : RecordId} (h : e.FreeFrom table n r) (hle : start ≤ n)
    (hfull : ∀ k, start ≤ k → k < n → e.Full table k) : e.FreeFrom table start r where
  on_table := h.on_table
  slot_lt := h.slot_lt
  free := h.free
  start_le := Nat.le_trans hle h.start_le
  pages := fun k hk hlt => by
    by_cases hkn : k < n
    · exact hfull k hk hkn
    · exact h.pages k (Nat.le_of_not_lt hkn) hlt
  slots := h.slots

/-- A history that ends in storing a row at the first free record id from page `start` on. -/
def Stores (e : Engine) (txn : TxnId) (table : Table) (t : Tuple) (start : Nat) (l : List Event) : Prop :=
  ∃ before r, l = before ++ [.stored txn r t] ∧ (∀ event ∈ before, event.Idle) ∧ e.FreeFrom table start r

/-- Events that change no row, over full pages, may come first. -/
theorem Stores.after_idle {txn : TxnId} {t : Tuple} {start n : Nat} {l₀ l : List Event}
    (h : e'.Stores txn table t n l) (hidle : ∀ event ∈ l₀, event.Idle) (hrow : ∀ r, e'.row? r = e.row? r)
    (hs : e'.pageSize = e.pageSize) (hle : start ≤ n) (hfull : ∀ k, start ≤ k → k < n → e.Full table k) :
    e.Stores txn table t start (l₀ ++ l) := by
  obtain ⟨before, r, rfl, hbefore, hfree⟩ := h
  exact ⟨l₀ ++ before, r, (List.append_assoc ..).symm, List.forall_mem_append.mpr ⟨hidle, hbefore⟩,
    (hfree.congr hrow hs).back hle hfull⟩

/-- What a walk over pages from `start` on leaves in its history, by its answer. -/
def Walked (e : Engine) (txn : TxnId) (table : Table) (t : Tuple) (left start : Nat) (l : List Event) :
    Except StorageError (Option FrameId) → Prop
  | .error _ => ∀ event ∈ l, event.Idle
  | .ok none => (∀ event ∈ l, event.Idle) ∧ ∀ n, start ≤ n → n < start + left → e.Full table n
  | .ok (some _) => e.Stores txn table t start l

/-- What an insert leaves in its history when the pages before `start` are known to be full, by its answer. -/
def Placed (e : Engine) (txn : TxnId) (table : Table) (t : Tuple) (start : Nat) (l : List Event) :
    Except StorageError (List FrameId) → Prop
  | .error _ => ∀ event ∈ l, event.Idle
  | .ok _ => e.Stores txn table t start l

theorem idle_getEvents (e : Engine) (txn : TxnId) (page : PageId) (access : Access) :
    ∀ event ∈ e.getEvents txn page access, event.Idle := forall_getEvents trivial

theorem Legal.slots_length {page : Page} (h : e.Legal page) (ht : e.catalog.table? page.id.table = .ok table) :
    page.slots.length = table.schema.slotCount e.pageSize := by
  obtain ⟨table', ht', hschema⟩ := h.schema
  cases ht.symm.trans ht'
  rw [h.exact.slots_length, hschema, h.size]

namespace Sound

/-- When all pages of a table are full its least record id without a row is the first one behind them. -/
theorem eq_of_full (h : e.Sound) (hr : e.InRange) (ht : e.catalog.table? table.id = .ok table) {r : RecordId}
    (hfree : e.FreeFrom table 0 r) (hfull : ∀ n < e.disk.pageCount e.pageSize table, e.Full table n) :
    r = ⟨⟨table.id, e.disk.pageCount e.pageSize table⟩, 0⟩ := by
  obtain ⟨count, _, hcount, hpages⟩ := h.pages hr ht
  rw [hcount] at hfull ⊢
  have hnone : ∀ slot, e.row? ⟨⟨table.id, count⟩, slot⟩ = none := fun slot =>
    h.row?_of_no_image (Option.not_isSome_iff_eq_none.mp fun hi => Nat.lt_irrefl _ ((hpages count).mp hi))
  obtain ⟨⟨rt, rn⟩, slot⟩ := r
  obtain rfl : rt = table.id := hfree.on_table
  have hnumber : rn = count := by
    refine Nat.le_antisymm (Nat.le_of_not_lt fun hgt => ?_) (Nat.le_of_not_lt fun hlt => ?_)
    · have hsome := hfree.pages count (Nat.zero_le _) hgt 0 (Nat.zero_lt_of_lt hfree.slot_lt)
      rw [hnone] at hsome
      cases hsome
    · have hsome := hfull rn hlt slot hfree.slot_lt
      rw [hfree.free] at hsome
      cases hsome
  subst hnumber
  have hzero : slot = 0 := by
    refine Nat.eq_zero_of_not_pos fun hpos => ?_
    have hsome := hfree.slots 0 hpos
    rw [hnone] at hsome
    cases hsome
  rw [hzero]

theorem along_idle {l : List Event} (h : e.Sound) (hpath : Ranged e l e') (hidle : ∀ event ∈ l, event.Idle) :
    e'.Sound ∧ ∀ r, e'.row? r = e.row? r := by
  have hfair : ∀ event ∈ l, event.Fair := fun event hm => (hidle event hm).fair
  refine ⟨hpath.sound h hfair, fun r => ?_⟩
  have hrows := hpath.rows h hfair r
  rw [Event.foldl_onRow_idle hidle] at hrows
  exact congrArg Prod.fst hrows

/-- On a fetched page with room a row goes to the first free slot, if it has the page's schema. -/
theorem storeIn_free (h : e.Sound) (ht : e.catalog.table? id = .ok table) {txn : TxnId} {n : Nat} {t : Tuple}
    {f : FrameId} {page : Page} (hget : e.getPage txn ⟨id, n⟩ .readWrite = (e', .ok f))
    (hpage : e'.page? f = some page) :
    match e'.storeIn txn f page t with
    | (_, .error _) => storeEvents txn page t = []
    | (_, .ok _) => ∃ r, storeEvents txn page t = [.stored txn r t] ∧ e.FreeFrom table n r := by
  obtain ⟨page', hpage', hid, hlegal, hrow⟩ := h.page_of_getPage hget
  cases hpage.symm.trans hpage'
  have hfixed := (path_getPage e txn ⟨id, n⟩ .readWrite).fixed
  rw [hget] at hfixed
  unfold Engine.storeIn storeEvents
  cases hi : page.insert t with
  | error err => rfl
  | ok placed =>
    obtain ⟨page', r⟩ := placed
    obtain ⟨_, hrp, _, hlt, hfree, hbefore⟩ := hlegal.exact.insert_eq_ok hi
    have hr : r.page = ⟨id, n⟩ := hrp.trans hid
    have hrows : ∀ slot, e.row? ⟨r.page, slot⟩ = (page.tuple? slot).map Tuple.encode := fun slot => by
      rw [hr, hrow]
    have ht' : e'.catalog.table? page.id.table = .ok table := by
      rw [hid, hfixed.1]
      exact ht
    have hlength := hlegal.slots_length ht'
    refine ⟨r, rfl, by rw [hr]; exact (h.keyed _ _ ht).symm, ?_, ?_, Nat.le_of_eq (by rw [hr]), ?_, ?_⟩
    · rw [← hfixed.2.1, ← hlength]
      exact hlt
    · refine (hrows r.slot).trans ?_
      rw [hfree]
      rfl
    · intro k hle hlt
      rw [hr] at hlt
      exact absurd hlt (Nat.not_lt.mpr hle)
    · intro slot hslot
      rw [hrows, Option.isSome_map]
      exact hbefore slot hslot

/-- A fetched page is full exactly if it has no room. -/
theorem full_iff_no_room (h : e.Sound) (ht : e.catalog.table? id = .ok table) {txn : TxnId} {n : Nat} {f : FrameId}
    {page : Page} (hget : e.getPage txn ⟨id, n⟩ .readWrite = (e', .ok f)) (hpage : e'.page? f = some page) :
    e.Full table n ↔ ¬ 0 < page.freeSlots := by
  obtain ⟨page', hpage', hid, hlegal, hrow⟩ := h.page_of_getPage hget
  cases hpage.symm.trans hpage'
  obtain ⟨hc, hs, _⟩ := (path_getPage e txn ⟨id, n⟩ .readWrite).fixed
  rw [hget] at hc hs
  have ht' : e'.catalog.table? page.id.table = .ok table := by
    rw [hid, hc]
    exact ht
  have hslot : ∀ slot, (e.row? ⟨⟨table.id, n⟩, slot⟩).isSome ↔ page.tuple? slot ≠ none := fun slot => by
    rw [h.keyed _ _ ht, ← hrow, Option.isSome_map, Option.isSome_iff_ne_none]
  unfold Full
  rw [Page.freeSlots_pos, hlegal.slots_length ht', show e'.pageSize = e.pageSize from hs]
  constructor
  · rintro hfull ⟨slot, hlt, hnone⟩
    exact (hslot slot).mp (hfull slot hlt) hnone
  · intro hroom slot hlt
    exact (hslot slot).mpr fun hnone => hroom ⟨slot, hlt, hnone⟩

/-- A walk stores its row at the first free record id that it meets, or nowhere. -/
theorem insertAmong_walked (h : e.Sound) (ht : e.catalog.table? id = .ok table) (txn : TxnId) (t : Tuple)
    (left n : Nat) :
    e.Walked txn table t left n (insertAmongEvents txn id t left n e) (insertAmong txn id t left n e).2 := by
  induction left generalizing n e with
  | zero =>
    refine ⟨List.forall_mem_nil _, fun k hle hlt => ?_⟩
    omega
  | succ left ih =>
    have hidle := idle_getEvents e txn ⟨id, n⟩ .readWrite
    have hsound := h.getPage txn ⟨id, n⟩ .readWrite
    have hsame := h.row?_getPage txn ⟨id, n⟩ .readWrite
    have hfixed := (path_getPage e txn ⟨id, n⟩ .readWrite).fixed
    unfold insertAmong insertAmongEvents
    cases hget : e.getPage txn ⟨id, n⟩ .readWrite with
    | mk e₁ result =>
      rw [hget] at hsound hsame hfixed
      cases result with
      | error err =>
        show ∀ event ∈ _ ++ [], _
        rw [List.append_nil]
        exact hidle
      | ok f =>
        obtain ⟨page, hpage, _⟩ := h.page_of_getPage hget
        simp only [hpage]
        by_cases hroom : 0 < page.freeSlots
        · simp only [if_pos hroom]
          have hstore := h.storeIn_free ht (t := t) hget hpage
          generalize e₁.storeIn txn f page t = outcome at hstore ⊢
          obtain ⟨e₂, result⟩ := outcome
          cases result with
          | error err =>
            rw [hstore, List.append_nil]
            exact hidle
          | ok g =>
            obtain ⟨r, hr, hfree⟩ := hstore
            rw [hr]
            exact ⟨_, r, rfl, hidle, hfree⟩
        · simp only [if_neg hroom]
          have hfull := (h.full_iff_no_room ht hget hpage).mpr hroom
          have hwalk := ih hsound (by rw [hfixed.1]; exact ht) (n + 1)
          generalize (insertAmong txn id t left (n + 1) e₁).2 = answer at hwalk ⊢
          cases answer with
          | error err => exact List.forall_mem_append.mpr ⟨hidle, hwalk⟩
          | ok found =>
            cases found with
            | none =>
              obtain ⟨hrest, hpages⟩ := hwalk
              refine ⟨List.forall_mem_append.mpr ⟨hidle, hrest⟩, fun k hle hlt => ?_⟩
              rcases Nat.eq_or_lt_of_le hle with rfl | hgt
              · exact hfull
              · exact (hpages k hgt (by omega)).congr hsame hfixed.2.1
            | some g =>
              refine hwalk.after_idle hidle hsame hfixed.2.1 (Nat.le_succ n) fun k hle hlt => ?_
              rwa [Nat.le_antisymm (Nat.le_of_lt_succ hlt) hle]

theorem storeAt_placed (h : e.Sound) (ht : e.catalog.table? id = .ok table) (txn : TxnId) (n : Nat) (t : Tuple) :
    e.Placed txn table t n (e.storeAtEvents txn ⟨id, n⟩ t) (e.storeAt txn ⟨id, n⟩ t).2 := by
  have hidle := idle_getEvents e txn ⟨id, n⟩ .readWrite
  unfold storeAt storeAtEvents
  cases hget : e.getPage txn ⟨id, n⟩ .readWrite with
  | mk e₁ result =>
    cases result with
    | error err =>
      show ∀ event ∈ _ ++ [], _
      rw [List.append_nil]
      exact hidle
    | ok f =>
      obtain ⟨page, hpage, _⟩ := h.page_of_getPage hget
      simp only [hpage, Option.elim_some]
      have hstore := h.storeIn_free ht (t := t) hget hpage
      generalize e₁.storeIn txn f page t = outcome at hstore ⊢
      obtain ⟨e₂, result⟩ := outcome
      cases result with
      | error err =>
        rw [hstore, List.append_nil]
        exact hidle
      | ok g =>
        obtain ⟨r, hr, hfree⟩ := hstore
        rw [hr]
        exact ⟨_, r, rfl, hidle, hfree⟩

theorem insertAtEnd_placed (h : e.Sound) (hr : e.InRange) (ht : e.catalog.table? id = .ok table) (txn : TxnId)
    (t : Tuple) (hfull : ∀ n < e.disk.pageCount e.pageSize table, e.Full table n) :
    e.Placed txn table t 0 (e.insertAtEndEvents txn table t) (e.insertAtEnd txn table t).2 := by
  have happend := ranged_appendPage hr ht
  have hid := h.keyed _ _ ht
  unfold insertAtEndEvents
  rw [insertAtEnd_eq]
  generalize e.appendPage table = outcome at happend ⊢
  obtain ⟨e₁, result⟩ := outcome
  cases result with
  | error err => exact List.forall_mem_nil _
  | ok new =>
    obtain ⟨rfl, hpath⟩ := happend
    rw [hid] at hpath ⊢
    have hidle : ∀ event ∈ [Event.appended ⟨id, e.disk.pageCount e.pageSize table⟩], event.Idle :=
      List.forall_mem_singleton.mpr trivial
    obtain ⟨hsound, hsame⟩ := h.along_idle hpath hidle
    obtain ⟨hc, hs, _⟩ := hpath.path.fixed
    have hplaced := hsound.storeAt_placed (by rw [hc]; exact ht) txn (e.disk.pageCount e.pageSize table) t
    show e.Placed txn table t 0 ([_] ++ _) _
    generalize (e₁.storeAt txn ⟨id, e.disk.pageCount e.pageSize table⟩ t).2 = answer at hplaced ⊢
    cases answer with
    | error err => exact List.forall_mem_append.mpr ⟨hidle, hplaced⟩
    | ok changed =>
      exact hplaced.after_idle hidle hsame hs (Nat.zero_le _) fun k _ hlt => hfull k hlt

theorem insertInto_placed (h : e.Sound) (hr : e.InRange) (ht : e.catalog.table? id = .ok table) (txn : TxnId)
    (t : Tuple) :
    e.Placed txn table t 0 (e.insertIntoEvents txn table t) (e.insertInto txn table t).2 := by
  have hid := h.keyed _ _ ht
  have hwalk := h.insertAmong_walked ht txn t (e.disk.pageCount e.pageSize table) 0
  obtain ⟨hpath, hfiles⟩ := ranged_insertAmong txn id t (e.disk.pageCount e.pageSize table) 0 e
  unfold insertInto insertIntoEvents
  by_cases hschema : t.schema ≠ table.schema
  · rw [if_pos hschema, if_pos hschema]
    exact List.forall_mem_nil _
  · rw [if_neg hschema, if_neg hschema, hid]
    generalize insertAmongEvents txn id t (e.disk.pageCount e.pageSize table) 0 e = l at hwalk hpath ⊢
    generalize insertAmong txn id t (e.disk.pageCount e.pageSize table) 0 e = outcome at hwalk hpath hfiles ⊢
    obtain ⟨e₁, answer⟩ := outcome
    cases answer with
    | error err =>
      show ∀ event ∈ l ++ [], _
      rw [List.append_nil]
      exact hwalk
    | ok found =>
      cases found with
      | some f =>
        show e.Stores txn table t 0 (l ++ [])
        rw [List.append_nil]
        exact hwalk
      | none =>
        obtain ⟨hidle, hpages⟩ := hwalk
        obtain ⟨hsound, hsame⟩ := h.along_idle hpath hidle
        obtain ⟨hc, hs, _⟩ := hpath.path.fixed
        have hcount : e₁.disk.pageCount e₁.pageSize table = e.disk.pageCount e.pageSize table := by
          unfold Disk.pageCount Disk.contents
          rw [hs, hfiles]
        have hplaced := hsound.insertAtEnd_placed (hr.congr hc hs hfiles) (by rw [hc]; exact ht) txn t fun n hlt => ?_
        · show e.Placed txn table t 0 (l ++ _) _
          generalize (e₁.insertAtEnd txn table t).2 = answer at hplaced ⊢
          cases answer with
          | error err => exact List.forall_mem_append.mpr ⟨hidle, hplaced⟩
          | ok changed =>
            exact hplaced.after_idle hidle hsame hs (Nat.le_refl 0) fun k _ hlt =>
              absurd hlt (Nat.not_lt_zero k)
        · rw [hcount] at hlt
          exact (hpages n (Nat.zero_le n) (by omega)).congr (fun r => (hsame r).symm) hs.symm

/-- An insert that succeeds stores its row at the least free record id of the table, as the last thing that happens in
it. One that fails stores nothing. -/
theorem insertTuple_stores (h : e.Sound) (hr : e.InRange) (ht : e.catalog.table? id = .ok table) (txn : TxnId)
    (t : Tuple) :
    match (e.insertTuple txn id t).2 with
    | .error _ => ∀ event ∈ e.insertEvents txn id t, event.Idle
    | .ok () => e.Stores txn table t 0 (e.insertEvents txn id t) := by
  obtain ⟨hevents, replacer, hinsert⟩ := insertTuple_plain txn t h.sane ht (h.plain _ _ ht)
  rw [hinsert, hevents]
  have hplaced := h.insertInto_placed hr ht txn t
  generalize (e.insertInto txn table t).2 = answer at hplaced ⊢
  cases answer <;> exact hplaced

/-- A delete that succeeds removes the row at its record id, which was there, as the last thing that happens in it. One
that fails removes nothing. -/
theorem deleteTuple_removes (h : e.Sound) (txn : TxnId) (record : Option RecordId) :
    match (e.deleteTuple txn record).2 with
    | .error _ => ∀ event ∈ e.deleteEvents txn record, event.Idle
    | .ok () => ∃ before r, record = some r ∧ e.deleteEvents txn record = before ++ [.removed txn r] ∧
        (∀ event ∈ before, event.Idle) ∧ (e.row? r).isSome := by
  cases record with
  | none => exact List.forall_mem_nil _
  | some r =>
    cases ht : e.catalog.table? r.page.table with
    | error err =>
      unfold deleteEvents deleteTuple
      simp only [ht]
      exact List.forall_mem_nil _
    | ok table =>
      obtain ⟨hevents, replacer, hdelete⟩ := deleteTuple_plain txn h.sane ht (h.plain _ _ ht)
      rw [hdelete, hevents]
      have hidle := idle_getEvents e txn r.page .readWrite
      unfold deleteFrom deleteFromEvents
      by_cases hout : r.page.table ≠ table.id ∨ e.disk.pageCount e.pageSize table ≤ r.page.number
      · simp only [if_pos hout]
        exact List.forall_mem_nil _
      · simp only [if_neg hout]
        cases hget : e.getPage txn r.page .readWrite with
        | mk e₁ result =>
          cases result with
          | error err =>
            show ∀ event ∈ _ ++ [], _
            rw [List.append_nil]
            exact hidle
          | ok f =>
            obtain ⟨page, hpage, _, hlegal, hrow⟩ := h.page_of_getPage hget
            simp only [hpage, Option.elim_some]
            unfold removeEvents
            cases hd : page.delete (some r) with
            | error err =>
              show ∀ event ∈ _ ++ [], _
              rw [List.append_nil]
              exact hidle
            | ok page' =>
              refine ⟨_, r, rfl, rfl, hidle, ?_⟩
              rw [← hrow r.slot, Option.isSome_map]
              exact (hlegal.exact.toShaped.delete_eq_ok hd).2.2.2

end Sound

end Engine

end RowStore
