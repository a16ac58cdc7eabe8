import RowStore.Proofs.FailedInserts
import RowStore.Proofs.FullTables
import RowStore.Proofs.LockSignals
import RowStore.Proofs.WriteAhead

/-!
# Inserts and deletes that fail

An insert or a delete changes a page at its very end: over tables that keep their pages in the pool nothing can fail
once a row was stored or removed. Before that it takes locks, reads pages, which may cost clean pages their place in
memory, and appends at most one page. None of this changes a page that was there: every frame keeps its page, dirty
pages stay in memory, and whatever comes to memory or goes is the same as on file. Nobody else's lock changes and
nothing is logged. All this holds as long as page numbers last. After that an insert that fails may have put its zero
page over another one.
-/

namespace RowStore

/-- What a transaction leaves behind that has changed no row: granted locks and appended pages. -/
def Event.Harmless (txn : TxnId) : Event → Prop
  | .granted t _ _ => t = txn
  | .appended _ => True
  | _ => False

theorem Event.Harmless.fair {txn : TxnId} {event : Event} (h : event.Harmless txn) : event.Fair := by
  cases event <;> trivial

namespace Engine

variable {e m e' : Engine} {l : List Event} {txn : TxnId} {id : TableId} {q : PageId}

/-- What was there in `e` is there in `e'`: pages on file, pages in frames, dirty pages in memory, and the locks of
everybody but `txn`, whose own locks are no weaker. Whatever has come to memory since is clean and as on file. -/
structure Retains (e : Engine) (txn : TxnId) (e' : Engine) : Prop where
  images : ∀ q, (e.image? q).isSome → e'.image? q = e.image? q
  frames : ∀ f page, e.page? f = some page → e'.page? f = some page
  resident : ∀ q f, e'.pool.resident.find? q = some f →
    e.pool.resident.find? q = some f ∨
      e.page? f = none ∧ ∃ page, e'.page? f = some page ∧ page.dirtier = none ∧ e'.image? q = some page.encode
  dirty : ∀ q f page, e.pool.resident.find? q = some f → e.page? f = some page → page.dirtier ≠ none →
    e'.pool.resident.find? q = some f
  others : ∀ other, other ≠ txn →
    (∀ q, e'.locks.modeOf? other q = e.locks.modeOf? other q) ∧ e'.locks.pagesOf other = e.locks.pagesOf other
  own : ∀ q held, e.locks.HeldAtLeast txn q held → e'.locks.HeldAtLeast txn q held

theorem retains_refl (e : Engine) (txn : TxnId) : e.Retains txn e where
  images _ _ := rfl
  frames _ _ hf := hf
  resident _ _ hr := .inl hr
  dirty _ _ _ hr _ _ := hr
  others _ _ := ⟨fun _ => rfl, rfl⟩
  own _ _ hh := hh

theorem Retains.trans (h : e.Retains txn m) (h' : m.Retains txn e') : e.Retains txn e' where
  images q hq := by
    have hm := h.images q hq
    rw [h'.images q (by rw [hm]; exact hq), hm]
  frames f page hf := h'.frames f page (h.frames f page hf)
  resident q f hr := by
    rcases h'.resident q f hr with hr | ⟨hnew, hpage⟩
    · rcases h.resident q f hr with hr | ⟨hnew, page, hf, hclean, hi⟩
      · exact .inl hr
      · refine .inr ⟨hnew, page, h'.frames f page hf, hclean, ?_⟩
        rw [h'.images q (by rw [hi]; rfl), hi]
    · refine .inr ⟨Option.eq_none_iff_forall_ne_some.mpr fun page hf => ?_, hpage⟩
      rw [h.frames f page hf] at hnew
      cases hnew
  dirty q f page hr hf hd := h'.dirty q f page (h.dirty q f page hr hf hd) (h.frames f page hf) hd
  others other hne :=
    ⟨fun q => ((h'.others other hne).1 q).trans ((h.others other hne).1 q),
      (h'.others other hne).2.trans (h.others other hne).2⟩
  own q held hh := h'.own q held (h.own q held hh)

theorem retains_of_same (hc : e'.catalog = e.catalog) (hs : e'.pageSize = e.pageSize)
    (hd : e'.disk.files = e.disk.files) (hframes : e'.pool.frames = e.pool.frames)
    (hresident : e'.pool.resident = e.pool.resident) (hlocks : e'.locks = e.locks) : e.Retains txn e' where
  images q _ := image?_congr hc hs hd q
  frames f page hf := by
    unfold Engine.page? Pool.page? at hf ⊢
    rw [hframes, hf]
  resident q f hr := .inl (by rw [← hresident, hr])
  dirty q f page hr _ _ := by rw [hresident, hr]
  others other _ := by rw [hlocks]; exact ⟨fun _ => rfl, rfl⟩
  own q held hh := by rwa [hlocks]

/-- Loading a page costs at most one clean page its place. -/
theorem Sound.retains_load (h : e.Sound) {page : Page} {pool : Pool} {f : FrameId}
    (hn : e.pool.resident.find? page.id = none) (hp : e.onFile page.id = .ok page)
    (hl : e.pool.load page = .ok (pool, f)) : e.Retains txn { e with pool := pool } where
  images _ _ := rfl
  frames g cur hg := by
    have hne : g ≠ f := by
      obtain ⟨_, _, rfl, _⟩ := Pool.load_eq_ok hl
      exact Nat.ne_of_lt (Array.getElem?_eq_some_iff.mp hg).1
    exact (Pool.page?_load hl g).trans ((if_neg hne).trans hg)
  resident q g hr := by
    by_cases hq : page.id = q
    · subst hq
      have hg : g = f := Option.some.inj (hr.symm.trans (Pool.find?_load hl))
      subst hg
      obtain ⟨_, hclean, hi⟩ := h.of_onFile hp
      refine .inr ⟨?_, page, (Pool.page?_load hl g).trans (if_pos rfl), hclean, hi⟩
      obtain ⟨_, _, rfl, _⟩ := Pool.load_eq_ok hl
      exact Array.getElem?_eq_none (Nat.le_refl _)
    · exact .inl (Pool.find?_load_of_ne hl hq hr)
  dirty q g cur hr hg hd := by
    have hq : page.id ≠ q := by
      rintro rfl
      cases hn.symm.trans hr
    refine Pool.find?_load_of_kept hl hq hr (Bool.eq_false_iff.mpr fun hevict => hd ?_)
    obtain ⟨g', clean, hr', hg', hclean, _⟩ := Pool.evictable_eq_true hevict
    cases hr.symm.trans hr'
    cases hg.symm.trans hg'
    exact hclean
  others _ _ := ⟨fun _ => rfl, rfl⟩
  own _ _ hh := hh

theorem retains_grant {page : PageId} {mode : LockMode} (hg : (e.locks.request txn page mode).2 = true) :
    e.Retains txn { e with locks := (e.locks.request txn page mode).1 } where
  images _ _ := rfl
  frames _ _ hf := hf
  resident _ _ hr := .inl hr
  dirty _ _ _ hr _ _ := hr
  others other hne := by
    refine ⟨fun q => ?_, ?_⟩
    · show (e.locks.request txn page mode).1.modeOf? other q = _
      rw [LockTable.modeOf?_request hg, if_neg fun hsame => hne hsame.1.symm]
    · show ((e.locks.request txn page mode).1.held.find? other).getD [] = _
      rw [LockTable.find?_held_request e.locks page mode hne]
      rfl
  own _ _ hh := hh.request txn page mode

/-- A page that is appended is none that was there. -/
theorem Sound.retains_append (h : e.Sound) {table : Table} (ht : e.catalog.table? id = .ok table)
    (hr : (e.disk.contents table.file).length < PageFile.numbers * e.pageSize) :
    e.Retains txn { e with disk := (e.disk.appendPage e.pageSize table).1 } where
  images q hq := by
    obtain ⟨count, _, hnone, himage, _⟩ := h.append ht hr
    refine (himage q).trans (if_neg fun he => ?_)
    rw [he, hnone] at hq
    cases hq
  frames _ _ hf := hf
  resident _ _ hr := .inl hr
  dirty _ _ _ hr _ _ := hr
  others _ _ := ⟨fun _ => rfl, rfl⟩
  own _ _ hh := hh

/-- A step that leaves nothing but locks and appended pages behind retains what was there. -/
theorem Step.retains (hstep : Step e l e') (h : e.Sound) (hl : ∀ event ∈ l, event.Harmless txn)
    (hrange : ∀ page, .appended page ∈ l → e.InRange) : e.Retains txn e' := by
  cases hstep with
  | call | countRead | log | force | touch => exact retains_of_same rfl rfl rfl rfl rfl rfl
  | load hn hp hload => exact h.retains_load hn hp hload
  | @grant t page mode hg =>
    obtain rfl : t = txn := hl _ List.mem_cons_self
    exact retains_grant hg
  | append ht => exact h.retains_append ht (hrange _ List.mem_cons_self _ _ ht)
  | store | remove | base | write | restore | discard | hand | complete | release =>
    exact (hl _ List.mem_cons_self).elim

theorem Ranged.retains (hpath : Ranged e l e') (h : e.Sound) (hl : ∀ event ∈ l, event.Harmless txn) :
    e.Retains txn e' := by
  induction hpath with
  | refl => exact retains_refl _ _
  | step hstep hrange _ ih =>
    obtain ⟨hfirst, hlater⟩ := List.forall_mem_append.mp hl
    have hsound := hstep.sound h (fun event hm => (hfirst event hm).fair) hrange
    exact (hstep.retains h hfirst hrange).trans (ih hsound hlater)

/-- Where all is retained a page has the resident copy that it had, or it has none that is changed, before or
after. -/
theorem Retains.copy?_cases (h : e.Retains txn e') (hs : e.pool.Sane) (q : PageId) :
    e'.copy? q = e.copy? q ∨
      (∀ page, e.copy? q = some page → page.dirtier = none) ∧
        ∀ page, e'.copy? q = some page → page.dirtier = none ∧ e'.image? q = some page.encode := by
  by_cases hd : ∃ page, e.copy? q = some page ∧ page.dirtier ≠ none
  · obtain ⟨page, hc, hd⟩ := hd
    obtain ⟨f, hr, hf⟩ := Pool.copy?_eq_some.mp hc
    exact .inl ((Pool.copy?_of_resident (h.dirty q f page hr hf hd) (h.frames f page hf)).trans hc.symm)
  · have hclean : ∀ page, e.copy? q = some page → page.dirtier = none := fun page hc =>
      Classical.byContradiction fun hne => hd ⟨page, hc, hne⟩
    cases hr : e'.pool.resident.find? q with
    | none =>
      refine .inr ⟨hclean, fun page hc => ?_⟩
      obtain ⟨f, hr', _⟩ := Pool.copy?_eq_some.mp hc
      cases hr.symm.trans hr'
    | some f =>
      rcases h.resident q f hr with hold | ⟨_, new, hf, hnew, hi⟩
      · obtain ⟨page, hf, _⟩ := hs.keyed q f hold
        exact .inl ((Pool.copy?_of_resident hr (h.frames f page hf)).trans (Pool.copy?_of_resident hold hf).symm)
      · refine .inr ⟨hclean, fun page hc => ?_⟩
        cases hc.symm.trans (Pool.copy?_of_resident hr hf)
        exact ⟨hnew, hi⟩

theorem Retains.mark? (h : e.Retains txn e') (hs : e.pool.Sane) (q : PageId) : e'.mark? q = e.mark? q := by
  unfold Engine.mark?
  rcases h.copy?_cases hs q with hsame | ⟨hold, hnew⟩
  · rw [hsame]
  · have hnone : (e.copy? q).bind Page.dirtier = none := by
      cases hc : e.copy? q with
      | none => rfl
      | some page => exact hold page hc
    have hnone' : (e'.copy? q).bind Page.dirtier = none := by
      cases hc : e'.copy? q with
      | none => rfl
      | some page => exact (hnew page hc).1
    rw [hnone, hnone']

/-- A page that was there reads as it did. -/
theorem Retains.view? (h : e.Retains txn e') (hs : e.Sound) (hq : (e.image? q).isSome) : e'.view? q = e.view? q := by
  have himage := h.images q hq
  rcases h.copy?_cases hs.sane q with hsame | ⟨hold, hnew⟩
  · unfold Engine.view?
    rw [hsame, himage]
  · have hview : e.view? q = e.image? q := by
      cases hc : e.copy? q with
      | none => exact view?_of_absent hc
      | some page => rw [view?_of_copy hc, (hs.backed q page hc).clean (hold page hc)]
    have hview' : e'.view? q = e'.image? q := by
      cases hc : e'.copy? q with
      | none => exact view?_of_absent hc
      | some page => rw [view?_of_copy hc, (hnew page hc).2]
    rw [hview, hview', himage]

/-! ## The log -/

theorem log_readPage (e : Engine) (page : PageId) : (e.readPage page).1.log = e.log := by
  obtain ⟨_, hread⟩ := e.readPage_eq page
  rw [hread]

theorem log_getPage (e : Engine) (txn : TxnId) (page : PageId) (access : Access) :
    (e.getPage txn page access).1.log = e.log := by
  rw [getPage_eq]
  split
  · have hread := log_readPage { e with locks := (e.locks.request txn page access.lockMode).1 } page
    unfold fetch
    split
    · rfl
    · generalize readPage _ page = outcome at hread ⊢
      obtain ⟨m, result⟩ := outcome
      cases result with
      | error err => exact hread
      | ok new =>
        simp only
        split <;> exact hread
  · rfl

theorem log_storeIn (e : Engine) (txn : TxnId) (f : FrameId) (page : Page) (t : Tuple) :
    (e.storeIn txn f page t).1.log = e.log := by
  unfold storeIn
  split <;> rfl

theorem log_insertAmong (txn : TxnId) (table : TableId) (t : Tuple) (left n : Nat) (e : Engine) :
    (insertAmong txn table t left n e).1.log = e.log := by
  induction left generalizing n e with
  | zero => rfl
  | succ left ih =>
    have hget := log_getPage e txn ⟨table, n⟩ .readWrite
    unfold insertAmong
    generalize e.getPage txn ⟨table, n⟩ .readWrite = outcome at hget ⊢
    obtain ⟨m, result⟩ := outcome
    cases result with
    | error err => exact hget
    | ok f =>
      simp only
      split
      · exact (ih _ m).trans hget
      · rename_i page _
        split
        · have hstore := log_storeIn m txn f page t
          generalize m.storeIn txn f page t = outcome at hstore ⊢
          obtain ⟨m', result⟩ := outcome
          cases result <;> exact hstore.trans hget
        · exact (ih _ m).trans hget

theorem log_storeAt (e : Engine) (txn : TxnId) (page : PageId) (t : Tuple) : (e.storeAt txn page t).1.log = e.log := by
  have hget := log_getPage e txn page .readWrite
  unfold storeAt
  generalize e.getPage txn page .readWrite = outcome at hget ⊢
  obtain ⟨m, result⟩ := outcome
  cases result with
  | error err => exact hget
  | ok f =>
    simp only
    split
    · exact hget
    · rename_i new _
      have hstore := log_storeIn m txn f new t
      generalize m.storeIn txn f new t = outcome at hstore ⊢
      obtain ⟨m', result⟩ := outcome
      cases result <;> exact hstore.trans hget

theorem log_insertInto (e : Engine) (txn : TxnId) (table : Table) (t : Tuple) :
    (e.insertInto txn table t).1.log = e.log := by
  unfold insertInto
  split
  · rfl
  · have hamong := log_insertAmong txn table.id t (e.disk.pageCount e.pageSize table) 0 e
    generalize insertAmong txn table.id t (e.disk.pageCount e.pageSize table) 0 e = outcome at hamong ⊢
    obtain ⟨m, result⟩ := outcome
    rcases result with err | _ | f
    · exact hamong
    · refine Eq.trans ?_ hamong
      show (m.insertAtEnd txn table t).1.log = m.log
      rw [insertAtEnd_eq]
      unfold appendPage Engine.call
      cases m.faults.fails .append m.faults.next with
      | true => rfl
      | false => exact log_storeAt ..
    · exact hamong

theorem log_deleteFrom (e : Engine) (txn : TxnId) (table : Table) (record : Option RecordId) :
    (e.deleteFrom txn table record).1.log = e.log := by
  unfold deleteFrom
  cases record with
  | none => rfl
  | some r =>
    simp only
    split
    · rfl
    · have hget := log_getPage e txn r.page .readWrite
      generalize e.getPage txn r.page .readWrite = outcome at hget ⊢
      obtain ⟨m, result⟩ := outcome
      cases result with
      | error err => exact hget
      | ok f =>
        simp only
        split
        · exact hget
        · split <;> exact hget

theorem log_followUpAll (e : Engine) (txn : TxnId) (page : PageId) (us : List FollowUp) :
    (us.foldl (followUp txn page) e).log = e.log := by
  induction us generalizing e with
  | nil => rfl
  | cons u rest ih =>
    refine (ih (followUp txn page e u)).trans ?_
    cases u with
    | discard => rfl
    | reload => exact log_getPage ..
    | fetch n => exact log_getPage ..

theorem log_finishChange (txn : TxnId) (table : Table) (r : Result (List FrameId)) :
    (finishChange txn table r).1.log = r.1.log := by
  obtain ⟨m, result⟩ := r
  cases result with
  | error err => rfl
  | ok changed =>
    show (m.followUps txn table changed).log = m.log
    unfold followUps
    induction changed generalizing m with
    | nil => rfl
    | cons f rest ih =>
      refine (ih _).trans ?_
      simp only
      split
      · rfl
      · exact log_followUpAll ..

theorem log_insertTuple (e : Engine) (txn : TxnId) (id : TableId) (t : Tuple) :
    (e.insertTuple txn id t).1.log = e.log := by
  unfold insertTuple
  split
  · rfl
  · exact (log_finishChange ..).trans (log_insertInto ..)

theorem log_deleteTuple (e : Engine) (txn : TxnId) (record : Option RecordId) :
    (e.deleteTuple txn record).1.log = e.log := by
  unfold deleteTuple
  split
  · rfl
  · split
    · rfl
    · exact (log_finishChange ..).trans (log_deleteFrom ..)

/-! ## Failed changes -/

/-- The states of a store over empty files of its own that is only asked for actions, with rows that are built from
values. Between two actions any frames may begin or cease to be written. -/
inductive InUse : Engine → Prop
  | start {e : Engine} (h : e.Fresh) : InUse e
  | act {e : Engine} (h : InUse e) {a : Action} (hb : a.Built) : InUse (e.act a)
  | writing {e : Engine} (h : InUse e) (frames : List FrameId) :
      InUse { e with pool := { e.pool with writing := frames } }

theorem InUse.acts (h : e.InUse) {as : List Action} (hb : ∀ a ∈ as, a.Built) : (e.acts as).InUse := by
  induction as generalizing e with
  | nil => exact h
  | cons a rest ih =>
    obtain ⟨ha, hrest⟩ := List.forall_mem_cons.mp hb
    exact ih (h.act ha) hrest

theorem InUse.sound (h : e.InUse) (hr : e.InRange) : e.Sound := by
  induction h with
  | start h => exact h.sound
  | @act e _ a hb ih =>
    have hpath := path_act e a
    have hsound := ih (hpath.inRange hr)
    exact (hpath.ranged hr).sound hsound (fair_of_mem_events hsound.toLayout hsound.sane hb)
  | @writing e _ frames ih =>
    have hsound : e.Sound := ih (hr.congr rfl rfl rfl)
    have hsane : Pool.Sane { e.pool with writing := frames } :=
      ⟨hsound.sane.keyed, hsound.sane.bounded, hsound.sane.tracked⟩
    exact hsound.of_copies rfl rfl rfl hsane fun _ _ hc => .inl hc

/-- An insert that fails has stored no row. -/
theorem harmless_of_failed_insert (hp : e.Plain) (hs : e.pool.Sane) {t : Tuple} {err : StorageError}
    (herr : (e.insertTuple txn id t).2 = .error err) : ∀ event ∈ e.insertEvents txn id t, event.Harmless txn := by
  intro event hm
  have hkind := forall_insertEvents (P := fun event => event.Harmless txn ∨ ∃ r, event = .stored txn r t) hp hs
    (fun _ _ => .inl rfl) (fun r => .inr ⟨r, rfl⟩) (fun _ => .inl trivial) event hm
  refine hkind.resolve_right ?_
  rintro ⟨r, rfl⟩
  rw [(insertTuple_of_stored hp hs hm).1] at herr
  cases herr

/-- A delete that fails has removed no row, and appended no page. -/
theorem harmless_of_failed_delete (hp : e.Plain) (hs : e.pool.Sane) {record : Option RecordId} {err : StorageError}
    (herr : (e.deleteTuple txn record).2 = .error err) :
    ∀ event ∈ e.deleteEvents txn record, event.Harmless txn ∧ ∀ page, event ≠ .appended page := by
  intro event hm
  have hkind := forall_deleteEvents
    (P := fun event => (event.Harmless txn ∧ ∀ page, event ≠ .appended page) ∨ ∃ r, event = .removed txn r) hp hs
    (fun _ _ => .inl ⟨rfl, fun _ => nofun⟩) (fun r _ => .inr ⟨r, rfl⟩) event hm
  refine hkind.resolve_right ?_
  rintro ⟨r, rfl⟩
  rw [(deleteTuple_of_removed hp hs hm).1] at herr
  cases herr

/-- Nothing that was there has changed between two states: neither the view of a page nor its dirtier, nor the page in
any frame, nor the log, nor the locks of anybody but `txn`. -/
structure Unchanged (e : Engine) (txn : TxnId) (e' : Engine) : Prop extends Retains e txn e' where
  views : ∀ q, (e.image? q).isSome → e'.view? q = e.view? q
  marks : ∀ q, e'.mark? q = e.mark? q
  log : e'.log = e.log
  catalog : e'.catalog = e.catalog
  pageSize : e'.pageSize = e.pageSize
  capacity : e'.pool.capacity = e.pool.capacity
  writing : e'.pool.writing = e.pool.writing

theorem Ranged.unchanged (hpath : Ranged e l e') (h : e.Sound) (hl : ∀ event ∈ l, event.Harmless txn)
    (hlog : e'.log = e.log) : e.Unchanged txn e' := by
  have hretains := hpath.retains h hl
  obtain ⟨hcatalog, hsize, _⟩ := hpath.path.fixed
  obtain ⟨hcapacity, hwriting⟩ := hpath.path.pool_fixed
  exact { hretains with
    views := fun q hq => hretains.view? h hq
    marks := hretains.mark? h.sane
    log := hlog
    catalog := hcatalog
    pageSize := hsize
    capacity := hcapacity
    writing := hwriting }

/-- The file of a table is longer by a page of zeros, and all other files are as they were. -/
structure Longer (e : Engine) (table : Table) (e' : Engine) : Prop where
  bytes : (e'.disk.contents table.file).toBytes =
    (e.disk.contents table.file).toBytes ++ Bytes.zeros e.pageSize
  others : ∀ file, file ≠ table.file → e'.disk.contents file = e.disk.contents file

theorem Sound.longer_of_insertTuple (h : e.Sound) (hr : e.InRange) (txn : TxnId) (id : TableId) (t : Tuple) :
    (e.insertTuple txn id t).1.disk.files = e.disk.files ∨
      ∃ table, e.catalog.table? id = .ok table ∧ e.Longer table (e.insertTuple txn id t).1 := by
  rcases files_insertTuple e txn id t with hsame | ⟨table, ht, hfiles⟩
  · exact .inl hsame
  have hcontents : ∀ file, (e.insertTuple txn id t).1.disk.contents file =
      if file = table.file then PageFile.append e.pageSize (e.disk.contents table.file)
      else e.disk.contents file := by
    intro file
    rw [← Disk.contents_setContents (h.placed id table ht)]
    exact congrArg (fun files => files.getD file SparseBytes.empty) hfiles
  obtain ⟨count, hlength⟩ := h.whole id table ht
  have hcount : count < PageFile.numbers := by
    have hshort := hr id table ht
    rw [hlength] at hshort
    exact Nat.lt_of_mul_lt_mul_right hshort
  refine .inr ⟨table, ht, ?_, fun file hne => (hcontents file).trans (if_neg hne)⟩
  rw [hcontents, if_pos rfl, PageFile.toBytes_append h.pageSize_pos hlength hcount]

/-- As long as page numbers last, an insert or a delete that fails, in whatever way, has changed nothing that was
there. It has taken locks and brought pages to memory, for which clean ones may have gone, and an insert may have made
its table's file longer by a page of zeros. -/
theorem failed_changes_change_nothing (h : e.InUse) (hr : e.InRange) (txn : TxnId) (err : StorageError) :
    (∀ id t, (e.insertTuple txn id t).2 = .error err →
      e.Unchanged txn (e.insertTuple txn id t).1 ∧
        ((e.insertTuple txn id t).1.disk.files = e.disk.files ∨
          ∃ table, e.catalog.table? id = .ok table ∧ e.Longer table (e.insertTuple txn id t).1)) ∧
    ∀ record, (e.deleteTuple txn record).2 = .error err →
      e.Unchanged txn (e.deleteTuple txn record).1 ∧ (e.deleteTuple txn record).1.disk.files = e.disk.files := by
  have hsound := h.sound hr
  refine ⟨fun id t herr => ⟨?_, hsound.longer_of_insertTuple hr txn id t⟩, fun record herr => ?_⟩
  · exact (ranged_act hr (.ask (.insert txn id t))).unchanged hsound
      (harmless_of_failed_insert hsound.plain hsound.sane herr) (log_insertTuple e txn id t)
  · have hevents := harmless_of_failed_delete hsound.plain hsound.sane herr
    have hpath := path_deleteTuple e txn record
    refine ⟨(ranged_act hr (.ask (.delete txn record))).unchanged hsound (fun event hm => (hevents event hm).1)
      (log_deleteTuple e txn record), hpath.files_eq (fun page hm => (hevents _ hm).2 page rfl) fun page hm => ?_⟩
    exact (hevents _ hm).1

/-- An insert for which there is no room in memory, and a delete where there is no row. -/
theorem failed_changes_change_nothing_in_crowded_store :
    (crowded.Unchanged ⟨1⟩ (crowded.insertTuple ⟨1⟩ ⟨0⟩ (flagRow false)).1 ∧
      (crowded.insertTuple ⟨1⟩ ⟨0⟩ (flagRow false)).1.disk.pageCount 2 (singleTable flagSchema) = 2) ∧
    crowded.Unchanged ⟨2⟩ (crowded.deleteTuple ⟨2⟩ (some ⟨⟨⟨0⟩, 1⟩, 0⟩)).1 := by
  have huse : crowded.InUse := InUse.acts (.start (fresh_single (by decide) _ _))
    (List.forall_mem_singleton.mpr ⟨flagSchema, [.boolean true], rfl⟩)
  have hrange : crowded.InRange := inRange_single (by decide +kernel)
  have hinsert := (failed_changes_change_nothing huse hrange ⟨1⟩ .bufferPoolFull).1 ⟨0⟩ (flagRow false) rfl
  have hdelete := (failed_changes_change_nothing huse hrange ⟨2⟩ (.noSuchTuple ⟨⟨⟨0⟩, 1⟩, 0⟩)).2
    (some ⟨⟨⟨0⟩, 1⟩, 0⟩) (by decide +kernel)
  exact ⟨⟨hinsert.1, by decide +kernel⟩, hdelete.1⟩

/-- Past the last page number an insert that fails may change a page on file. -/
theorem failed_insert_zeroes_page_past_last :
    ¬ ∀ e : Engine, e.InUse → ∀ txn id t err, (e.insertTuple txn id t).2 = .error err →
      ∀ q, (e.image? q).isSome → (e.insertTuple txn id t).1.image? q = e.image? q := by
  intro hall
  have hfresh := fresh_single Nat.two_pos ⟨1, 2, none⟩ flagSchema
  have htable : (single 2 ⟨1, 2, none⟩ flagSchema).catalog.table? ⟨0⟩ = .ok (singleTable flagSchema) :=
    table?_single.mpr ⟨rfl, rfl⟩
  have hrow : ∃ schema values, Tuple.ofValues schema values = .ok (flagRow true) := ⟨flagSchema, [.boolean true], rfl⟩
  obtain ⟨ts, hbuilt, hsettled, hlength, hfirst⟩ := hfresh.filled_up (fun _ _ => rfl) Nat.one_pos htable
    (fun id other ht => (table?_single.mp ht).2) rfl hrow rfl
  have hsize := (path_acts (single 2 ⟨1, 2, none⟩ flagSchema)
    (ts.flatMap (Transaction.actions (singleTable flagSchema)))).fixed.2.1
  have huse : ((single 2 ⟨1, 2, none⟩ flagSchema).acts
      (ts.flatMap (Transaction.actions (singleTable flagSchema)))).InUse := by
    refine InUse.acts (.start hfresh) fun a ha => ?_
    obtain ⟨t, ht, hm⟩ := List.mem_flatMap.mp ha
    exact (hbuilt t ht).of_mem_actions hm
  obtain ⟨page, _, _, himage, hzeros, herr, _, hover⟩ := hsettled.refused_past_last (t := flagRow true)
    (by rw [hlength, hsize]) hfirst rfl (show (⟨2⟩ : TxnId) ≠ ⟨3⟩ by decide) rfl
  have hkept := hall _ (huse.act (a := .ask (.get ⟨2⟩ ⟨⟨0⟩, 0⟩ .readWrite)) trivial) _ _ _ _ herr ⟨⟨0⟩, 0⟩
    (Option.isSome_iff_exists.mpr ⟨_, himage⟩)
  exact hzeros (Option.some.inj (himage.symm.trans (hkept.symm.trans hover)))

end Engine

end RowStore
