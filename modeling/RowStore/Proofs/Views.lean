import RowStore.Proofs.PlainTables
import RowStore.Proofs.TwoPhase

/-!
# What a reader would see

The view of a page is its resident copy if there is one and its image on file otherwise. In a sound state only a row
stored or removed on the page, a reload of it, or its being dropped or appended changes its view: whether it is in
memory, and which other pages had to give way for it, makes no difference. Fetches, scans, commits and flushes change
no view at all.
-/

namespace RowStore

/-- The page whose view an event may change. -/
def Event.touched : Event → Option PageId
  | .stored _ record _ => some record.page
  | .removed _ record => some record.page
  | .appended page => some page
  | .restored page => some page
  | .discarded page => some page
  | _ => none

namespace Action

/-- Fetches, scans, commits, flushes and releases of locks. -/
def Passive : Action → Prop
  | .ask (.insert _ _ _) => False
  | .ask (.delete _ _) => False
  | .ask (.abort _ _) => False
  | .ask (.discard _) => False
  | _ => True

theorem Passive.touched {a : Action} (h : a.Passive) {event : Event} (hm : a.MayLeave event) :
    event.touched = none := by
  cases a with
  | ask r =>
    cases r with
    | insert | delete | abort | discard => exact h.elim
    | get | commit | flush | flushTxn | flushAll | release => cases event <;> first | rfl | exact hm.elim
  | next s => cases event <;> first | rfl | exact hm.elim
  | scan txn table => cases event <;> first | rfl | exact hm.elim

theorem Passive.built {a : Action} (h : a.Passive) : a.Built := by
  cases a with
  | ask r => cases r <;> first | exact trivial | exact h.elim
  | next s => exact trivial
  | scan txn table => exact trivial

end Action

namespace Engine

/-- The bytes of a page as a reader would get them. -/
def view? (e : Engine) (id : PageId) : Option Bytes :=
  match e.copy? id with
  | some page => some page.encode
  | none => e.image? id

theorem view?_of_copy {e : Engine} {id : PageId} {page : Page} (h : e.copy? id = some page) :
    e.view? id = some page.encode := by
  unfold view?
  rw [h]

theorem view?_of_absent {e : Engine} {id : PageId} (h : e.copy? id = none) : e.view? id = e.image? id := by
  unfold view?
  rw [h]

theorem view?_setPage {e : Engine} (hs : e.pool.Sane) {id : PageId} {f : FrameId} {old : Page} (page : Page)
    (hr : e.pool.resident.find? id = some f) (hf : e.page? f = some old) (q : PageId) :
    (e.setPage f page).view? q = if q = id then some page.encode else e.view? q := by
  have hcopy := hs.copy?_setPage hr hf page q
  change (e.setPage f page).copy? q = if q = id then some page else e.copy? q at hcopy
  by_cases hq : q = id
  · rw [if_pos hq] at hcopy ⊢
    exact view?_of_copy hcopy
  · rw [if_neg hq] at hcopy ⊢
    unfold view?
    rw [hcopy]
    rfl

/-- A page that gives way to a loaded one is clean. -/
theorem clean_of_given_up {e : Engine} {page copy : Page} {pool : Pool} {f : FrameId}
    (hl : e.pool.load page = .ok (pool, f)) {q : PageId} (hold : e.copy? q = some copy)
    (hnew : pool.copy? q = none) : copy.dirtier = none := by
  obtain ⟨g, hg, hcopy⟩ := Pool.copy?_eq_some.mp hold
  have hq : page.id ≠ q := by
    rintro rfl
    rw [Pool.copy?_load_self hl] at hnew
    cases hnew
  have hevict : e.pool.evictable q = true := by
    refine Classical.byContradiction fun hk => ?_
    have hkept := Pool.find?_load_of_kept hl hq hg (Bool.eq_false_iff.mpr hk)
    have hgf : g ≠ f := by
      obtain ⟨_, _, rfl, _⟩ := Pool.load_eq_ok hl
      exact Nat.ne_of_lt (Array.getElem?_eq_some_iff.mp hcopy).1
    have hsome := Pool.copy?_of_resident hkept ((Pool.page?_load hl g).trans ((if_neg hgf).trans hcopy))
    rw [hnew] at hsome
    cases hsome
  obtain ⟨g', clean, hg', hclean, hd, _⟩ := Pool.evictable_eq_true hevict
  cases hg.symm.trans hg'
  cases hcopy.symm.trans hclean
  exact hd

/-- Loading a page, with or without another one giving way, changes no view. -/
theorem Sound.view?_load {e : Engine} (h : e.Sound) {page : Page} {pool : Pool} {f : FrameId}
    (hn : e.pool.resident.find? page.id = none) (hp : e.onFile page.id = .ok page)
    (hl : e.pool.load page = .ok (pool, f)) (q : PageId) : view? { e with pool := pool } q = e.view? q := by
  cases hnew : pool.copy? q with
  | some copy =>
    rcases h.sane.copy?_load hl hnew with ⟨rfl, rfl⟩ | ⟨_, hold⟩
    · have hold : e.copy? copy.id = none := by
        show (e.pool.resident.find? copy.id).bind e.pool.page? = none
        rw [hn]
        rfl
      rw [view?_of_absent hold, (h.of_onFile hp).2.2]
      exact view?_of_copy hnew
    · rw [view?_of_copy (e := e) hold]
      exact view?_of_copy hnew
  | none =>
    refine (view?_of_absent (e := { e with pool := pool }) hnew).trans ?_
    cases hold : e.copy? q with
    | none => exact (view?_of_absent hold).symm
    | some copy =>
      rw [view?_of_copy hold]
      exact (h.backed q _ hold).clean (clean_of_given_up hl hold hnew)

/-- A step changes no view but that of the page its event touches. -/
theorem Step.view? {e e' : Engine} {l : List Event} (hstep : Step e l e') (h : e.Sound)
    (hfair : ∀ event ∈ l, event.Fair) (hrange : ∀ page, .appended page ∈ l → e.InRange) {q : PageId}
    (hq : ∀ event ∈ l, event.touched ≠ some q) : e'.view? q = e.view? q := by
  cases hstep with
  | call | countRead | log | force | grant | complete | release | touch => rfl
  | load hn hp hl => exact h.view?_load hn hp hl q
  | hand txn f => exact (hfair _ List.mem_cons_self).elim
  | discard id =>
    have hne : q ≠ id := fun he => hq _ List.mem_cons_self (congrArg some he.symm)
    have hcopy := Pool.copy?_discard e.pool id q
    rw [if_neg hne] at hcopy
    show (match (e.pool.discard id).copy? q with | some page => some page.encode | none => e.image? q) = _
    rw [hcopy]
    rfl
  | store hr hf hx hi =>
    have hid := h.sane.id_of_copy? (Pool.copy?_of_resident hr hf)
    rw [view?_setPage h.sane _ hr hf, if_neg]
    rintro rfl
    exact hq _ List.mem_cons_self (congrArg some ((Page.id_of_insert hi).2.trans hid))
  | remove hr hf hx hd =>
    have hid := h.sane.id_of_copy? (Pool.copy?_of_resident hr hf)
    rw [view?_setPage h.sane _ hr hf, if_neg]
    rintro rfl
    exact hq _ List.mem_cons_self (congrArg some ((Page.id_of_delete hd).2.trans hid))
  | base hr hf =>
    rw [view?_setPage h.sane _ hr hf]
    split
    · rename_i hqid
      rw [hqid, view?_of_copy (Pool.copy?_of_resident hr hf), Page.encode_setBeforeImage]
    · rfl
  | restore hr hf hp =>
    have hid := h.sane.id_of_copy? (Pool.copy?_of_resident hr hf)
    rw [view?_setPage h.sane _ hr hf, if_neg]
    rintro rfl
    exact hq _ List.mem_cons_self (congrArg some hid)
  | @append id table ht =>
    obtain ⟨count, hcount, hnone, himage, _⟩ := h.append ht (hrange _ List.mem_cons_self _ _ ht)
    have hne : q ≠ ⟨id, count⟩ := by
      rintro rfl
      refine hq _ List.mem_cons_self ?_
      show some (PageId.mk table.id (e.disk.pageCount e.pageSize table)) = _
      rw [hcount, h.keyed _ _ ht]
    have hsame := (himage q).trans (if_neg hne)
    unfold Engine.view?
    rw [hsame]
    rfl
  | @write id f page txn table hr hf hd hl ht hi =>
    have hcopy := Pool.copy?_of_resident hr hf
    have hid := h.sane.id_of_copy? hcopy
    have himage := (h.write hr hf ht).1 q
    refine (view?_setPage (e := { e with disk := (e.disk.writePage table page).1 }) h.sane _ hr hf q).trans ?_
    split
    · rename_i hqid
      rw [hqid, view?_of_copy hcopy, Page.encode_markDirty]
    · rename_i hqid
      rw [if_neg (by rw [hid]; exact hqid)] at himage
      show (match e.copy? q with | some page => some page.encode | none => _) = _
      rw [himage]
      rfl

/-- Along a path a page that no event touches keeps its view. -/
theorem Ranged.view? {e e' : Engine} {l : List Event} (hpath : Ranged e l e') (h : e.Sound)
    (hfair : ∀ event ∈ l, event.Fair) {q : PageId} (hq : ∀ event ∈ l, event.touched ≠ some q) :
    e'.view? q = e.view? q := by
  induction hpath with
  | refl => rfl
  | step hstep hrange _ ih =>
    obtain ⟨hfirst, hlater⟩ := List.forall_mem_append.mp hfair
    obtain ⟨hq₁, hq₂⟩ := List.forall_mem_append.mp hq
    rw [ih (hstep.sound h hfirst hrange) hlater hq₂, hstep.view? h hfirst hrange hq₁]

theorem Step.length_eq {e e' : Engine} {l : List Event} (hstep : Step e l e') (h : e.Sound)
    (hl : ∀ page, .appended page ∉ l) (file : Nat) :
    (e'.disk.contents file).length = (e.disk.contents file).length := by
  cases hstep with
  | append => exact absurd List.mem_cons_self (hl _)
  | @write id f page txn table hr hf hd hlog ht hi =>
    have hcopy := Pool.copy?_of_resident hr hf
    have hb := h.backed _ _ hcopy
    have hon := hb.on_file
    rw [← h.sane.id_of_copy? hcopy, image?_of_table ht, PageFile.isSome_page?] at hon
    show ((e.disk.writePage table page).1.contents file).length = _
    unfold Disk.writePage
    rw [if_neg fun hne => hne hi]
    refine (congrArg SparseBytes.length (Disk.contents_setContents (h.placed _ _ ht) _ file)).trans ?_
    split
    · rename_i hfile
      rw [hfile]
      exact PageFile.length_write (by rw [Page.length_encode, hb.size]) hon
    · rfl
  | call | countRead | log | force | touch | load | grant | store | remove | base | restore | discard | hand
  | complete | release => rfl

/-- A path that appends nothing leaves all files as long as they were. -/
theorem Path.length_eq {e e' : Engine} {l : List Event} (hpath : Path e l e') (h : e.Sound)
    (hfair : ∀ event ∈ l, event.Fair) (hl : ∀ page, .appended page ∉ l) (file : Nat) :
    (e'.disk.contents file).length = (e.disk.contents file).length := by
  induction hpath with
  | refl => rfl
  | step hstep _ ih =>
    obtain ⟨hfirst, hlater⟩ := List.forall_mem_append.mp hfair
    have hsame := hstep.length_eq h (fun page hm => hl page (List.mem_append_left _ hm)) file
    have hsound := hstep.sound h hfirst fun page hm => absurd (List.mem_append_left _ hm) (hl page)
    exact (ih hsound hlater fun page hm => hl page (List.mem_append_right _ hm)).trans hsame

/-- Fetches, scans, commits, flushes and releases change no view. -/
theorem Sound.view?_passive {e : Engine} (h : e.Sound) {a : Action} (ha : a.Passive) (q : PageId) :
    (e.act a).view? q = e.view? q := by
  have htouched : ∀ event ∈ e.events a, event.touched = none := fun event hm =>
    ha.touched (mayLeave_of_mem_events event hm)
  have hpath := (path_act e a).ranged_of_not_appended fun page hm => by cases htouched _ hm
  refine hpath.view? h (fair_of_mem_events h.toLayout h.sane ha.built) fun event hm => ?_
  rw [htouched event hm]
  exact Option.some_ne_none q |>.symm

/-- A path that appends nothing leaves the same pages on file. -/
theorem Path.isSome_image? {e e' : Engine} {l : List Event} (hpath : Path e l e') (h : e.Sound)
    (hfair : ∀ event ∈ l, event.Fair) (hl : ∀ page, .appended page ∉ l) (q : PageId) :
    (e'.image? q).isSome ↔ (e.image? q).isSome := by
  unfold Engine.image?
  rw [hpath.fixed.1, hpath.fixed.2.1]
  cases e.catalog.table? q.table with
  | error err => exact Iff.rfl
  | ok table => rw [PageFile.isSome_page?, PageFile.isSome_page?, hpath.length_eq h hfair hl]

/-- A store that has just begun: every table lies in an empty file of its own and nothing is in memory. -/
structure Fresh (e : Engine) : Prop extends Layout e where
  empty : ∀ id table, e.catalog.table? id = .ok table → (e.disk.contents table.file).length = 0
  pool : ∃ capacity k, e.pool = Pool.new capacity k
  locks : e.locks = LockTable.empty

theorem Fresh.sane {e : Engine} (h : e.Fresh) : e.pool.Sane := by
  obtain ⟨capacity, k, hp⟩ := h.pool
  rw [hp]
  exact Pool.sane_new capacity k

theorem Fresh.copy? {e : Engine} (h : e.Fresh) (id : PageId) : e.copy? id = none := by
  obtain ⟨capacity, k, hp⟩ := h.pool
  unfold Engine.copy?
  rw [hp]
  rfl

theorem Fresh.image? {e : Engine} (h : e.Fresh) (id : PageId) : e.image? id = none := by
  cases ht : e.catalog.table? id.table with
  | error err =>
    unfold Engine.image?
    rw [ht]
  | ok table =>
    have hpos := h.pageSize_pos
    rw [image?_of_table ht, ← Option.not_isSome_iff_eq_none, PageFile.isSome_page?, h.empty _ _ ht]
    omega

theorem Fresh.sound {e : Engine} (h : e.Fresh) : e.Sound where
  toLayout := h.toLayout
  sane := h.sane
  whole := fun id table ht => ⟨0, by rw [h.empty id table ht, Nat.zero_mul]⟩
  legible := by
    intro id image hi
    rw [h.image?] at hi
    cases hi
  backed := by
    intro id page hp
    rw [h.copy?] at hp
    cases hp

def singleTable (schema : Schema) : Table := ⟨⟨0⟩, schema, 0, []⟩

theorem table?_single {pageSize : Nat} {config : PoolConfig} {schema : Schema} {id : TableId} {table : Table} :
    (single pageSize config schema).catalog.table? id = .ok table ↔ id = ⟨0⟩ ∧ table = singleTable schema := by
  have hfind : (single pageSize config schema).catalog.table? id =
      if (⟨0⟩ : TableId) = id then .ok (singleTable schema) else .error (.tableNotFound id) := by
    have htables : (single pageSize config schema).catalog.tables =
        (Dict.empty : Dict TableId Registration).insert ⟨0⟩ ⟨"rows", singleTable schema⟩ := rfl
    unfold Catalog.table?
    rw [htables, Dict.find?_insert, Dict.find?_empty]
    by_cases hid : (⟨0⟩ : TableId) = id
    · rw [if_pos hid, if_pos hid]
    · rw [if_neg hid, if_neg hid]
  rw [hfind]
  constructor
  · intro h
    split at h
    · rename_i hid
      cases h
      exact ⟨hid.symm, rfl⟩
    · cases h
  · rintro ⟨rfl, rfl⟩
    rfl

theorem fresh_single {pageSize : Nat} (hpos : 0 < pageSize) (config : PoolConfig) (schema : Schema) :
    (single pageSize config schema).Fresh where
  pageSize_pos := hpos
  keyed := by
    intro id table ht
    obtain ⟨rfl, rfl⟩ := table?_single.mp ht
    rfl
  plain := by
    intro id table ht
    obtain ⟨rfl, rfl⟩ := table?_single.mp ht
    rfl
  placed := by
    intro id table ht
    obtain ⟨rfl, rfl⟩ := table?_single.mp ht
    exact Nat.zero_lt_one
  apart := by
    intro id id' table table' ht ht' _
    rw [(table?_single.mp ht).1, (table?_single.mp ht').1]
  empty := by
    intro id table ht
    obtain ⟨rfl, rfl⟩ := table?_single.mp ht
    rfl
  pool := ⟨config.capacity, config.k, rfl⟩
  locks := rfl

theorem inRange_single {pageSize : Nat} {config : PoolConfig} {schema : Schema} {as : List Action}
    (h : (((single pageSize config schema).acts as).disk.contents 0).length < PageFile.numbers * pageSize) :
    ((single pageSize config schema).acts as).InRange := by
  have hfixed := (path_acts (single pageSize config schema) as).fixed
  intro id table ht
  rw [hfixed.1] at ht
  obtain ⟨rfl, rfl⟩ := table?_single.mp ht
  rw [hfixed.2.1]
  exact h

/-- As long as page numbers last memory is transparent: in every state that a store over empty files of its own can
reach, a resident page that is not marked as changed is the same as on file, and no fetch, scan, commit, flush or
release of a lock, whether it succeeds or not, changes the view of any page. -/
theorem views_transparent (e : Engine) (hfresh : e.Fresh) (as : List Action) (hbuilt : ∀ a ∈ as, a.Built)
    (hrange : (e.acts as).InRange) :
    (∀ id page, (e.acts as).copy? id = some page → page.dirtier = none →
      (e.acts as).image? id = some page.encode) ∧
    ∀ a : Action, a.Passive → ∀ q, ((e.acts as).act a).view? q = (e.acts as).view? q := by
  have hsound := hfresh.sound.acts hbuilt hrange
  exact ⟨fun id page hc hd => (hsound.backed id page hc).clean hd, fun a ha q => hsound.view?_passive ha q⟩

/-- A flush writes the committed row to the file, and a reader sees what was seen before. -/
theorem flushed_row_in_view :
    ((flagStore.acts rowCommitted).act (.ask (.flushAll .asListed))).view? ⟨⟨0⟩, 0⟩ = some [1, 1, 0, 0] := by
  have hbuilt : ∃ schema values, Tuple.ofValues schema values = .ok (flagRow true) := ⟨flagSchema, [.boolean true], rfl⟩
  have hviews := (views_transparent flagStore (fresh_single (by decide) _ _) rowCommitted
    (List.forall_mem_cons.mpr ⟨hbuilt, List.forall_mem_singleton.mpr trivial⟩) (inRange_single (by decide +kernel))).2
  rw [hviews (.ask (.flushAll .asListed)) trivial]
  decide +kernel

end Engine

end RowStore
