import RowStore.Proofs.Marks

/-!
# Steady stores

A store is steady when it is sound, its locks are proper and nothing fails. Actions with built rows keep a store steady
while its files are short. In a steady store a row lasts until it is removed or its page is read again, an abort brings
back the saved copies on the pages that its transaction has marked, and a fetched page shows the rows as they are.
-/

namespace RowStore

namespace Event

/-- Whether an event may take away the row at a record id. -/
def Vacates (r : RecordId) : Event → Prop
  | removed _ r' => r' = r
  | restored page => page = r.page
  | discarded page => page = r.page
  | _ => False

/-- Reloads put the saved copy in the place of a row on their pages and leave the others. -/
theorem foldl_onRow_restored {l : List Event} (r : RecordId) (row : Option Bytes × Option Bytes)
    (hl : ∀ event ∈ l, event.OfAbort) :
    (l.foldl (onRow r) row).2 = row.2 ∧ (.restored r.page ∈ l → (l.foldl (onRow r) row).1 = row.2) ∧
      (.restored r.page ∉ l → (l.foldl (onRow r) row).1 = row.1) := by
  induction l generalizing row with
  | nil => exact ⟨rfl, by rintro ⟨⟩, fun _ => rfl⟩
  | cons event rest ih =>
    obtain ⟨hhead, hrest⟩ := List.forall_mem_cons.mp hl
    rcases hhead with ⟨page, rfl⟩ | ⟨txn, rfl⟩
    · by_cases hp : page = r.page
      · obtain ⟨h2, hin, hout⟩ := ih (row.2, row.2) hrest
        have hstep : onRow r row (.restored page) = (row.2, row.2) := if_pos hp
        rw [List.foldl_cons, hstep]
        refine ⟨h2, fun _ => ?_, fun hn => absurd (by rw [hp]; exact List.mem_cons_self) hn⟩
        by_cases hm : .restored r.page ∈ rest
        · exact hin hm
        · exact hout hm
      · obtain ⟨h2, hin, hout⟩ := ih row hrest
        have hstep : onRow r row (.restored page) = row := if_neg hp
        rw [List.foldl_cons, hstep]
        refine ⟨h2, fun hm => hin ?_, fun hn => hout fun hm => hn (List.mem_cons_of_mem _ hm)⟩
        rcases List.mem_cons.mp hm with he | hm
        · cases he
          exact absurd rfl hp
        · exact hm
    · obtain ⟨h2, hin, hout⟩ := ih row hrest
      refine ⟨h2, fun hm => hin ?_, fun hn => hout fun hm => hn (List.mem_cons_of_mem _ hm)⟩
      rcases List.mem_cons.mp hm with he | hm
      · cases he
      · exact hm

end Event

namespace Action

def ends : Action → Option TxnId
  | .ask (.commit txn _) => some txn
  | .ask (.abort txn _) => some txn
  | _ => none

theorem ends_eq_some {a : Action} {txn : TxnId} (h : a.ends = some txn) :
    (∃ sweep, a = .ask (.commit txn sweep)) ∨ ∃ sweep, a = .ask (.abort txn sweep) := by
  cases a with
  | ask r =>
    cases r with
    | commit t sweep =>
      cases h
      exact .inl ⟨sweep, rfl⟩
    | abort t sweep =>
      cases h
      exact .inr ⟨sweep, rfl⟩
    | get | insert | delete | flush | flushTxn | flushAll | discard | release => cases h
  | next s => cases h
  | scan t table => cases h

/-- An action with built rows that neither drops a page nor lets go of a lock. -/
def Orderly : Action → Prop
  | .ask (.insert _ _ tuple) => ∃ schema values, Tuple.ofValues schema values = .ok tuple
  | .ask (.discard _) => False
  | .ask (.release _ _) => False
  | _ => True

theorem Orderly.built {a : Action} (h : a.Orderly) : a.Built := by
  cases a with
  | ask r => cases r <;> first | exact h | exact trivial
  | next s => exact trivial
  | scan txn table => exact trivial

theorem MayLeave.ends {a : Action} {txn : TxnId} (h : a.MayLeave (.completed txn)) : a.ends = some txn := by
  cases a with
  | ask r => cases r <;> first | exact h.elim | exact congrArg some h.symm
  | next s => exact h.elim
  | scan t table => exact h.elim

theorem MayLeave.abort {a : Action} {page : PageId} (h : a.MayLeave (.restored page)) :
    ∃ txn sweep, a = .ask (.abort txn sweep) := by
  cases a with
  | ask r =>
    cases r with
    | abort txn sweep => exact ⟨txn, sweep, rfl⟩
    | get | insert | delete | commit | flush | flushTxn | flushAll | discard | release => exact h.elim
  | next s => exact h.elim
  | scan t table => exact h.elim

theorem Orderly.not_release {a : Action} (h : a.Orderly) {event : Event} (hm : a.MayLeave event) :
    LockTable.isRelease event = false := by
  cases event with
  | released txn page =>
    cases a with
    | ask r => cases r <;> first | exact hm.elim | exact h.elim
    | next s => exact hm.elim
    | scan t table => exact hm.elim
  | granted | stored | removed | appended | based | written | restored | discarded | handed | completed => rfl

end Action

namespace Engine

/-- Along a path a row lasts as long as nothing takes it away. -/
theorem Ranged.row_kept {e e' : Engine} {l : List Event} (hpath : Ranged e l e') (h : e.Sound)
    (hfair : ∀ event ∈ l, event.Fair) {r : RecordId} {bytes : Bytes}
    (hrow : e.row? r = some bytes) (hl : ∀ event ∈ l, ¬ event.Vacates r) : e'.row? r = some bytes := by
  induction hpath with
  | refl => exact hrow
  | @step e m e' l l' hstep hrange _ ih =>
    obtain ⟨hfirst, hlater⟩ := List.forall_mem_append.mp hfair
    obtain ⟨hl₁, hl₂⟩ := List.forall_mem_append.mp hl
    obtain ⟨hfold, hfree⟩ := hstep.rows h hfirst hrange r
    refine ih (hstep.sound h hfirst hrange) hlater ?_ hl₂
    have hkeep : ∀ (l : List Event) (row : Option Bytes × Option Bytes), row.1 = some bytes →
        (∀ event ∈ l, ¬ event.Vacates r) → (∀ txn tuple, .stored txn r tuple ∉ l) →
        (l.foldl (Event.onRow r) row).1 = some bytes := by
      intro l
      induction l with
      | nil => exact fun row hr _ _ => hr
      | cons event rest ih =>
        intro row hr hv hs
        obtain ⟨hv₁, hv₂⟩ := List.forall_mem_cons.mp hv
        refine ih _ ?_ hv₂ fun txn tuple hm => hs txn tuple (List.mem_cons_of_mem _ hm)
        cases event with
        | stored txn r' tuple =>
          have hne : r' ≠ r := by
            rintro rfl
            exact hs txn tuple List.mem_cons_self
          exact (congrArg Prod.fst (if_neg hne)).trans hr
        | removed txn r' => exact (congrArg Prod.fst (if_neg hv₁)).trans hr
        | restored page => exact (congrArg Prod.fst (if_neg hv₁)).trans hr
        | discarded page => exact (congrArg Prod.fst (if_neg hv₁)).trans hr
        | written page =>
          show (if page = r.page then (row.1, row.1) else row).1 = _
          split <;> exact hr
        | granted | appended | based | handed | completed | released => exact hr
    have hnot : ∀ txn tuple, .stored txn r tuple ∉ l := by
      intro txn tuple hm
      rw [hfree txn tuple hm] at hrow
      cases hrow
    have hfirst' := congrArg Prod.fst hfold
    change m.row? r = _ at hfirst'
    rw [hfirst']
    exact hkeep l _ hrow hl₁ hnot

/-- A sound store with proper locks, in which nothing fails. -/
structure Steady (e : Engine) : Prop extends Sound e where
  faultless : e.Faultless
  proper : e.locks.Proper

theorem Fresh.steady {e : Engine} (h : e.Fresh) (hf : e.Faultless) : e.Steady where
  toSound := h.sound
  faultless := hf
  proper := by
    rw [h.locks]
    exact LockTable.proper_empty

theorem Housed.not_discarded {e : Engine} (h : e.Housed) {a : Action} (ha : a.Orderly) (page : PageId) :
    .discarded page ∉ e.events a := by
  intro hm
  rw [discarded_of_mem_events h.plain h.sane hm] at ha
  exact ha

namespace Sound

variable {e : Engine} {a : Action}

theorem fair (h : e.Sound) (ha : a.Built) : ∀ event ∈ e.events a, event.Fair :=
  fair_of_mem_events h.toLayout h.sane ha

theorem locks (h : e.Sound) (a : Action) :
    e.locks.AdmitsAll (e.events a) ∧ (e.act a).locks = (e.events a).foldl LockTable.after e.locks :=
  (path_act e a).locks h.sane

/-- Along a path of fair events a store stays sound while there are numbers for all pages. -/
theorem act (h : e.Sound) (ha : a.Built) (hr : e.InRange) : (e.act a).Sound :=
  (ranged_act hr a).sound h (h.fair ha)

theorem pages (h : e.Sound) (hr : e.InRange) {id : TableId} {table : Table} (ht : e.catalog.table? id = .ok table) :
    ∃ count, (e.disk.contents table.file).length = count * e.pageSize ∧ e.disk.pageCount e.pageSize table = count ∧
      ∀ n, (e.image? ⟨id, n⟩).isSome ↔ n < count := by
  obtain ⟨count, hl⟩ := h.whole id table ht
  have hlt := hr id table ht
  rw [hl] at hlt
  refine ⟨count, hl, PageFile.pageCount_eq h.pageSize_pos hl (Nat.lt_of_mul_lt_mul_right hlt), fun n => ?_⟩
  rw [@image?_of_table e ⟨id, n⟩ _ ht, PageFile.isSome_page?_iff_lt h.pageSize_pos hl]

theorem length_eq_of_not_appended (h : e.Sound) (ha : a.Built) (hn : ∀ page, .appended page ∉ e.events a)
    (file : Nat) : ((e.act a).disk.contents file).length = (e.disk.contents file).length :=
  (path_act e a).length_eq h (h.fair ha) hn file

theorem getPage (h : e.Sound) (txn : TxnId) (id : PageId) (access : Access) : (e.getPage txn id access).1.Sound :=
  ((path_getPage e txn id access).ranged_of_not_appended appended_not_mem_getEvents).sound h
    (h.fair (a := .ask (.get txn id access)) trivial)

/-- A fetch changes no row. -/
theorem row?_getPage (h : e.Sound) (txn : TxnId) (id : PageId) (access : Access) (r : RecordId) :
    (e.getPage txn id access).1.row? r = e.row? r := by
  have hrows := ((path_getPage e txn id access).ranged_of_not_appended appended_not_mem_getEvents).rows h
    (h.fair (a := .ask (.get txn id access)) trivial) r
  have hsame : (e.getEvents txn id access).foldl (Event.onRow r) (e.row? r, e.saved? r) =
      (e.row? r, e.saved? r) := by
    unfold getEvents
    split <;> rfl
  rw [hsame] at hrows
  exact congrArg Prod.fst hrows

/-- A fetch leaves the same pages on file. -/
theorem isSome_image?_getPage (h : e.Sound) (txn : TxnId) (id : PageId) (access : Access) (q : PageId) :
    ((e.getPage txn id access).1.image? q).isSome ↔ (e.image? q).isSome :=
  (path_getPage e txn id access).isSome_image? h (h.fair (a := .ask (.get txn id access)) trivial)
    appended_not_mem_getEvents q

theorem page_of_getPage (h : e.Sound) {txn : TxnId} {id : PageId} {access : Access} {e' : Engine} {f : FrameId}
    (hget : e.getPage txn id access = (e', .ok f)) :
    ∃ page, e'.page? f = some page ∧ page.id = id ∧ e'.Legal page ∧
      ∀ slot, (page.tuple? slot).map Tuple.encode = e.row? ⟨id, slot⟩ := by
  have hsound := h.getPage txn id access
  have hrow := h.row?_getPage txn id access
  rw [hget] at hsound hrow
  obtain ⟨_, _, hres⟩ := getPage_ok hget
  obtain ⟨page, hpage, hid⟩ := hsound.sane.keyed _ _ hres
  have hcopy := Pool.copy?_of_resident hres hpage
  refine ⟨page, hpage, hid, (hsound.backed _ _ hcopy).toLegal, fun slot => ?_⟩
  rw [← hsound.row?_of_copy hcopy (r := ⟨id, slot⟩) rfl]
  exact hrow ⟨id, slot⟩

/-- Fetches, scans, commits and flushes change no row. -/
theorem row?_passive (h : e.Sound) (ha : a.Passive) (r : RecordId) : (e.act a).row? r = e.row? r := by
  have hfixed := (path_act e a).fixed
  unfold row?
  rw [h.view?_passive ha, rowIn?_congr hfixed.1 hfixed.2.1]

/-- The end of a transaction lets go of exactly its locks. -/
theorem locks_of_ends (h : e.Sound) {txn : TxnId} (ha : a.ends = some txn) :
    (e.act a).locks = (e.locks.releaseAll txn).1 := by
  rw [(h.locks a).2]
  cases a with
  | ask r =>
    cases r with
    | commit t sweep =>
      cases ha
      show (commitEvents txn (sweep.order (e.pool.dirtiedBy txn)) e ++ [Event.completed txn]).foldl _ _ = _
      rw [List.foldl_append, LockTable.foldl_after_same (forall_commitEvents (fun _ _ => rfl) _ e)]
      rfl
    | abort t sweep =>
      cases ha
      show (rollbackEvents (sweep.order (e.pool.dirtiedBy txn)) e ++ [Event.completed txn]).foldl _ _ = _
      rw [List.foldl_append, LockTable.foldl_after_same (forall_rollbackEvents (fun _ _ => rfl) _ e)]
      rfl
    | get | insert | delete | flush | flushTxn | flushAll | discard | release => cases ha
  | next s => cases ha
  | scan t table => cases ha

end Sound

namespace Steady

variable {e : Engine} {a : Action}

/-- Along a path of fair events a store stays steady while there are numbers for all pages. -/
theorem along {e' : Engine} {l : List Event} (h : e.Steady) (hpath : Ranged e l e')
    (hfair : ∀ event ∈ l, event.Fair) : e'.Steady where
  toSound := hpath.sound h.toSound hfair
  faultless := hpath.path.faultless h.faultless
  proper := by
    rw [(hpath.path.locks h.sane).2]
    exact h.proper.foldl_after _

theorem act (h : e.Steady) (ha : a.Built) (hr : e.InRange) : (e.act a).Steady :=
  h.along (ranged_act hr a) (h.fair ha)

theorem act_of_not_appended (h : e.Steady) (ha : a.Built) (hn : ∀ page, .appended page ∉ e.events a) :
    (e.act a).Steady :=
  h.along ((path_act e a).ranged_of_not_appended hn) (h.fair ha)

theorem acts {as : List Action} (h : e.Steady) (ha : ∀ a ∈ as, a.Built) (hr : (e.acts as).InRange) :
    (e.acts as).Steady := by
  induction as generalizing e with
  | nil => exact h
  | cons a rest ih =>
    exact ih (h.act (ha a List.mem_cons_self) ((path_acts e (a :: rest)).inRange hr))
      (fun b hb => ha b (List.mem_cons_of_mem a hb)) hr

theorem abort (h : e.Steady) (txn : TxnId) (sweep : Sweep) : (e.act (.ask (.abort txn sweep))).Steady :=
  h.act_of_not_appended trivial fun _ hm => mayLeave_of_mem_events _ hm

theorem getPage (h : e.Steady) (txn : TxnId) (id : PageId) (access : Access) : (e.getPage txn id access).1.Steady :=
  h.act_of_not_appended (a := .ask (.get txn id access)) trivial fun _ hm => mayLeave_of_mem_events _ hm

/-- An abort brings the saved copies of rows back on the pages that its transaction has marked, and changes no other
row. -/
theorem row_abort (h : e.Steady) (txn : TxnId) (sweep : Sweep) (r : RecordId) :
    (e.act (.ask (.abort txn sweep))).row? r = if e.mark? r.page = some txn then e.saved? r else e.row? r := by
  have hpath := (path_act e (.ask (.abort txn sweep))).ranged_of_not_appended fun _ hm => mayLeave_of_mem_events _ hm
  have hrows := hpath.rows h.toSound (h.fair trivial) r
  obtain ⟨_, hin, hout⟩ := Event.foldl_onRow_restored r (e.row? r, e.saved? r) ofAbort_of_mem_events
  have hiff := restored_mem_abort h.toSound.housed h.faultless txn sweep r.page
  refine (congrArg Prod.fst hrows).trans ?_
  by_cases hm : e.mark? r.page = some txn
  · rw [if_pos hm]
    exact hin (hiff.mpr hm)
  · rw [if_neg hm]
    exact hout fun hc => hm (hiff.mp hc)

/-- An action that is no abort and does not remove a row keeps it. -/
theorem row_kept (h : e.Steady) (ha : a.Orderly) (hr : e.InRange) {r : RecordId} {bytes : Bytes}
    (hrow : e.row? r = some bytes) (hrem : ∀ txn, .removed txn r ∉ e.events a)
    (habort : ∀ txn sweep, a = .ask (.abort txn sweep) → e.mark? r.page ≠ some txn) :
    (e.act a).row? r = some bytes := by
  by_cases hab : ∃ txn sweep, a = .ask (.abort txn sweep)
  · obtain ⟨txn, sweep, rfl⟩ := hab
    rw [h.row_abort, if_neg (habort txn sweep rfl), hrow]
  · refine (ranged_act hr a).row_kept h.toSound (h.fair ha.built) hrow fun event hm hv => ?_
    have hk := mayLeave_of_mem_events event hm
    have hfair := h.fair ha.built event hm
    cases event with
    | removed txn r' =>
      cases hv
      exact hrem txn hm
    | restored page => exact hab hk.abort
    | discarded page => exact h.toSound.housed.not_discarded ha page hm
    | stored | granted | appended | based | written | handed | completed | released => exact hv

end Steady

end Engine

end RowStore
