import RowStore.Proofs.PagesOnFile

/-!
# The log comes first

A page reaches its file in one place only, where a flush writes a marked page back, and there the log is appended to and
forced before the file is called. So whatever fails, each call that writes a page finds the page's record durable: its
marking transaction, its baseline, and exactly the bytes that go to the file. What a flush leaves on file is what the
resident page held, with a durable record of it. Every other operation leaves the bytes of all files alone, but for
the zero page that an insert may append.
-/

namespace RowStore

def Action.Flushes : Action → Prop
  | .ask (.flush _) => True
  | .ask (.flushTxn _ _) => True
  | .ask (.flushAll _) => True
  | _ => False

theorem Action.Flushes.written {a : Action} (h : a.Flushes) {event : Event} (hm : a.MayLeave event) :
    ∃ page, event = .written page := by
  cases a with
  | ask r =>
    cases r with
    | flush | flushTxn | flushAll => cases event <;> first | exact ⟨_, rfl⟩ | exact hm.elim
    | get | insert | delete | commit | abort | discard | release => exact h.elim
  | next s => exact h.elim
  | scan txn table => exact h.elim

theorem Action.MayLeave.flushes {a : Action} {page : PageId} (h : a.MayLeave (.written page)) : a.Flushes := by
  cases a with
  | ask r =>
    cases r with
    | flush | flushTxn | flushAll => exact trivial
    | get | insert | delete | commit | abort | discard | release => exact h.elim
  | next s => exact h.elim
  | scan txn table => exact h.elim

theorem Action.MayLeave.inserts {a : Action} {page : PageId} (h : a.MayLeave (.appended page)) :
    ∃ txn table tuple, a = .ask (.insert txn table tuple) := by
  cases a with
  | ask r =>
    cases r with
    | insert txn table tuple => exact ⟨txn, table, tuple, rfl⟩
    | get | delete | commit | abort | flush | flushTxn | flushAll | discard | release => exact h.elim
  | next s => exact h.elim
  | scan txn table => exact h.elim

namespace Engine

variable {e e' : Engine} {l : List Event}

/-- The records that a force has made durable. -/
def logged (e : Engine) : List UpdateRecord := e.log.records.take e.log.durable

theorem Step.logged (hstep : Step e l e') {r : UpdateRecord} (hr : r ∈ e.logged) : r ∈ e'.logged := by
  cases hstep with
  | log r' =>
    show r ∈ (e.log.records ++ [r']).take e.log.durable
    rw [List.take_append]
    exact List.mem_append_left _ hr
  | force =>
    show r ∈ e.log.records.take e.log.records.length
    rw [List.take_length]
    exact List.mem_of_mem_take hr
  | call | countRead | touch | load | grant | store | remove | append | base | write | restore | discard | hand
  | complete | release => exact hr

theorem Path.logged (hpath : Path e l e') {r : UpdateRecord} (hr : r ∈ e.logged) : r ∈ e'.logged := by
  induction hpath with
  | refl => exact hr
  | step hstep _ ih => exact ih (hstep.logged hr)

/-! ## The calls that write pages -/

/-- The call of a file to write a page that a write-back comes to, as the state that it is made in and the page. -/
def writeCall? (e : Engine) (f : FrameId) : Option (Engine × Page) :=
  match e.page? f with
  | none => none
  | some page =>
    match page.dirtier with
    | none => none
    | some txn =>
      match e.logAndForce txn page with
      | (_, .error _) => none
      | (e, .ok ()) => some (e, page)

/-- A write-back that comes to a call makes that one, and is done when it succeeds. -/
theorem writeBack_of_writeCall {f : FrameId} {called : Engine} {page : Page}
    (h : e.writeCall? f = some (called, page)) :
    e.writeBack f =
      match called.writePage page with
      | (e, .error err) => (e, .error err)
      | (e, .ok ()) => (e.setPage f (page.markDirty none), .ok true) := by
  unfold writeCall? at h
  unfold writeBack
  grind

/-- Otherwise it leaves the disk as it was. -/
theorem disk_writeBack_of_no_writeCall {f : FrameId} (h : e.writeCall? f = none) :
    (e.writeBack f).1.disk = e.disk := by
  unfold writeCall? at h
  unfold writeBack
  cases hf : e.page? f with
  | none => rfl
  | some page =>
    rw [hf] at h
    simp only at h ⊢
    cases hd : page.dirtier with
    | none => rfl
    | some txn =>
      rw [hd] at h
      obtain ⟨_, ⟨log, faults, hstate⟩, _⟩ := logAndForce_cases e txn page
      simp only at h ⊢
      generalize e.logAndForce txn page = outcome at h hstate ⊢
      obtain ⟨e₁, result⟩ := outcome
      change e₁ = _ at hstate
      subst hstate
      cases result with
      | error err => rfl
      | ok _ => cases h

def writeCalls : List FrameId → Engine → List (Engine × Page)
  | [], _ => []
  | f :: rest, e =>
    (e.writeCall? f).toList ++
      match e.writeBack f with
      | (_, .error _) => []
      | (next, .ok _) => writeCalls rest next

/-- The calls to write pages that an action makes, whether they succeed or not. -/
def callsOf (e : Engine) : Action → List (Engine × Page)
  | .ask (.flush page) => ((e.pool.resident.find? page).bind e.writeCall?).toList
  | .ask (.flushTxn txn sweep) => writeCalls (sweep.order (e.pool.dirtiedBy txn)) e
  | .ask (.flushAll sweep) => writeCalls (sweep.order e.pool.residentFrames) e
  | _ => []

def callsDuring (e : Engine) : List Action → List (Engine × Page)
  | [] => []
  | a :: as => e.callsOf a ++ (e.act a).callsDuring as

/-- A page that is about to be written to its file, after its record has become durable. -/
structure LoggedFirst (e : Engine) (page : Page) : Prop where
  resident : e.copy? page.id = some page
  record : ∃ txn, page.dirtier = some txn ∧ ⟨txn, page.id, page.beforeImage, page.encode⟩ ∈ e.logged

theorem loggedFirst_of_writeCall (hs : e.pool.Sane) {id : PageId} {f : FrameId}
    (hr : e.pool.resident.find? id = some f) {called : Engine} {page : Page}
    (h : e.writeCall? f = some (called, page)) : called.LoggedFirst page := by
  unfold writeCall? at h
  cases hf : e.page? f with
  | none =>
    rw [hf] at h
    cases h
  | some page' =>
    rw [hf] at h
    simp only at h
    cases hd : page'.dirtier with
    | none =>
      rw [hd] at h
      cases h
    | some txn =>
      rw [hd] at h
      obtain ⟨_, ⟨log, faults, hstate⟩, hdurable⟩ := logAndForce_cases e txn page'
      simp only at h
      generalize e.logAndForce txn page' = outcome at h hstate hdurable
      obtain ⟨e₁, result⟩ := outcome
      change e₁ = _ at hstate
      cases result with
      | error err => cases h
      | ok _ =>
        cases h
        have hcopy := Pool.copy?_of_resident hr hf
        refine ⟨?_, txn, hd, hdurable rfl⟩
        rw [hstate, hs.id_of_copy? hcopy]
        exact hcopy

theorem loggedFirst_of_mem_writeCalls {frames : List FrameId} (hs : e.pool.Sane)
    (hr : ∀ f ∈ frames, ∃ id, e.pool.resident.find? id = some f) :
    ∀ call ∈ writeCalls frames e, call.1.LoggedFirst call.2 := by
  induction frames generalizing e with
  | nil => exact List.forall_mem_nil _
  | cons f rest ih =>
    obtain ⟨id, hid⟩ := hr f List.mem_cons_self
    obtain ⟨hres, hpath⟩ := path_writeBack hid
    refine List.forall_mem_append.mpr ⟨fun call hm => ?_, ?_⟩
    · exact loggedFirst_of_writeCall hs hid (Option.mem_toList.mp hm)
    · have hsane := hpath.sane hs
      generalize e.writeBack f = outcome at hres hsane ⊢
      obtain ⟨e₁, result⟩ := outcome
      change e₁.pool.resident = _ at hres
      cases result with
      | error err => exact List.forall_mem_nil _
      | ok _ => exact ih hsane (resident_rest hr hres)

theorem loggedFirst_of_mem_callsOf (hs : e.pool.Sane) (a : Action) :
    ∀ call ∈ e.callsOf a, call.1.LoggedFirst call.2 := by
  cases a with
  | ask r =>
    cases r with
    | flush page =>
      intro call hm
      obtain ⟨f, hres, hcall⟩ := Option.bind_eq_some_iff.mp (Option.mem_toList.mp hm)
      exact loggedFirst_of_writeCall hs hres hcall
    | flushTxn txn sweep => exact loggedFirst_of_mem_writeCalls hs fun _ => resident_of_mem_dirtiedBy
    | flushAll sweep => exact loggedFirst_of_mem_writeCalls hs fun _ => resident_of_mem_residentFrames
    | get | insert | delete | commit | abort | discard | release => exact List.forall_mem_nil _
  | next s => exact List.forall_mem_nil _
  | scan txn table => exact List.forall_mem_nil _

theorem loggedFirst_of_mem_callsDuring (hs : e.pool.Sane) (as : List Action) :
    ∀ call ∈ e.callsDuring as, call.1.LoggedFirst call.2 := by
  induction as generalizing e with
  | nil => exact List.forall_mem_nil _
  | cons a rest ih =>
    exact List.forall_mem_append.mpr ⟨loggedFirst_of_mem_callsOf hs a, ih ((path_act e a).sane hs)⟩

/-! ## What flushes leave on file -/

/-- A step that neither writes a page nor appends keeps its image. -/
theorem Step.image?_eq (hstep : Step e l e') (h : e.Housed) {q : PageId} (hw : .written q ∉ l)
    (ha : ∀ page, .appended page ∉ l) : e'.image? q = e.image? q := by
  cases hstep with
  | append => exact absurd List.mem_cons_self (ha _)
  | @write id f page txn table hr hf hd hlog ht hi =>
    refine (h.image?_write hr hf ht q).trans (if_neg ?_)
    rintro rfl
    exact hw List.mem_cons_self
  | call | countRead | log | force | touch | load | grant | store | remove | base | restore | discard | hand
  | complete | release => rfl

/-- A step that writes a page puts the resident copy's bytes on file, marked and with a durable record, and the page is
unmarked after it. -/
theorem Step.image?_of_written (hstep : Step e l e') (h : e.Housed) {p : PageId} (hw : .written p ∈ l) :
    e'.mark? p = none ∧ ∃ page txn, e.copy? p = some page ∧ page.dirtier = some txn ∧
      e'.image? p = some page.encode ∧ ⟨txn, p, page.beforeImage, page.encode⟩ ∈ e'.logged := by
  cases hstep with
  | @write id f page txn table hr hf hd hlog ht hi =>
    cases List.mem_singleton.mp hw
    have hcopy := Pool.copy?_of_resident hr hf
    rw [← h.sane.id_of_copy? hcopy] at hcopy
    refine ⟨(mark?_setPage h.sane _ hr hf page.id).trans (if_pos rfl), page, txn, hcopy, hd, ?_, hlog⟩
    exact (h.image?_write hr hf ht page.id).trans (if_pos rfl)
  | grant | store | remove | append | base | restore | discard | hand | complete | release =>
    cases List.mem_singleton.mp hw
  | call | countRead | log | force | touch | load => cases hw

/-- On a path of writes a page stays on file as it was, or it was marked before and is on file as its resident copy was,
with a durable record. -/
theorem Path.flushed (hpath : Path e l e') (h : e.Housed) (hl : ∀ event ∈ l, ∃ q, event = .written q) (p : PageId) :
    (.written p ∉ l ∧ e'.image? p = e.image? p) ∨
      ∃ page txn, e.copy? p = some page ∧ page.dirtier = some txn ∧ .written p ∈ l ∧
        e'.image? p = some page.encode ∧ ⟨txn, p, page.beforeImage, page.encode⟩ ∈ e'.logged := by
  induction hpath with
  | refl => exact .inl ⟨List.not_mem_nil, rfl⟩
  | @step e m e' l l' hstep hrest ih =>
    obtain ⟨hfirst, hlater⟩ := List.forall_mem_append.mp hl
    have hhand : ∀ txn f, .handed txn f ∉ l := fun txn f hm => by cases (hfirst _ hm).choose_spec
    have hmarks := hstep.marks h.sane hhand p
    specialize ih (hstep.housed h hhand) hlater
    by_cases hw : .written p ∈ l
    · -- Written now: the page is unmarked from here on and is not written again.
      obtain ⟨hclean, page, txn, hcopy, hd, himage, hlogged⟩ := hstep.image?_of_written h hw
      refine .inr ⟨page, txn, hcopy, hd, List.mem_append_left _ hw, ?_, hrest.logged hlogged⟩
      rcases ih with ⟨_, hsame⟩ | ⟨page', txn', hcopy', hd', _⟩
      · rw [hsame, himage]
      · unfold mark? at hclean
        rw [hcopy', Option.bind_some, hd'] at hclean
        cases hclean
    · have himage := hstep.image?_eq h hw fun page hm => by cases (hfirst _ hm).choose_spec
      rcases ih with ⟨hnot, hsame⟩ | ⟨page, txn, hcopy, hd, hw', himage', hlogged⟩
      · refine .inl ⟨fun hm => (List.mem_append.mp hm).elim hw hnot, hsame.trans himage⟩
      · -- Written later: it is marked already, so that its copy has not changed until then.
        have hon : ∀ event ∈ l, ¬ event.On p := by
          intro event hm hon
          obtain ⟨q, rfl⟩ := hfirst event hm
          cases hon
          exact hw hm
        have hkept : e.mark? p = some txn := by
          rw [Event.foldl_onMark_of_not_on hon] at hmarks
          rw [← hmarks]
          unfold mark?
          rw [hcopy]
          exact hd
        obtain ⟨old, hold, hmark⟩ := Option.bind_eq_some_iff.mp hkept
        have hcur := hstep.copy?_of_marked h.sane hhand hold (by rw [hmark]; exact Option.some_ne_none _) hon
        cases hcur.symm.trans hcopy
        exact .inr ⟨page, txn, hold, hd, List.mem_append_right _ hw', himage', hlogged⟩

/-- Every table's file is a whole number of pages. -/
def Whole (e : Engine) : Prop :=
  ∀ id table, e.catalog.table? id = .ok table → ∃ count, (e.disk.contents table.file).length = count * e.pageSize

theorem Step.whole (hstep : Step e l e') (h : e.Housed) (hw : e.Whole)
    (hrange : ∀ page, .appended page ∈ l → e.InRange) : e'.Whole := by
  have hset : ∀ {id id' : TableId} {table table' : Table} {c : SparseBytes}, e.catalog.table? id = .ok table →
      e.catalog.table? id' = .ok table' → (∃ count, c.length = count * e.pageSize) →
      ∃ count, ((e.disk.setContents table.file c).contents table'.file).length = count * e.pageSize := by
    intro id id' table table' c ht ht' hc
    rw [Disk.contents_setContents (h.placed _ _ ht)]
    split
    · exact hc
    · exact hw id' table' ht'
  cases hstep with
  | @append id table ht =>
    obtain ⟨count, hl⟩ := hw id table ht
    have hlt := hrange _ List.mem_cons_self id table ht
    rw [hl] at hlt
    have hlength := PageFile.length_append h.pageSize_pos hl (Nat.lt_of_mul_lt_mul_right hlt)
    exact fun id' table' ht' => hset ht ht' ⟨_, hlength⟩
  | @write id f page txn table hr hf hd hlog ht hi =>
    have hcopy := Pool.copy?_of_resident hr hf
    have hon := h.on_file _ _ hcopy
    rw [← h.sane.id_of_copy? hcopy, image?_of_table ht, PageFile.isSome_page?] at hon
    obtain ⟨count, hl⟩ := hw _ table ht
    have hlength := PageFile.length_write ((Page.length_encode page).trans (h.sized _ _ hcopy)) hon
    intro id' table' ht'
    show ∃ count, ((e.disk.writePage table page).1.contents table'.file).length = count * e.pageSize
    unfold Disk.writePage
    rw [if_neg fun hne => hne hi]
    exact hset ht ht' ⟨count, hlength.trans hl⟩
  | call | countRead | log | force | touch | load | grant | store | remove | base | restore | discard | hand
  | complete | release => exact hw

theorem Ranged.whole (hpath : Ranged e l e') (h : e.Housed) (hl : ∀ txn f, .handed txn f ∉ l) (hw : e.Whole) :
    e'.Whole := by
  induction hpath with
  | refl => exact hw
  | step hstep hrange _ ih =>
    have hfirst := fun txn f hm => hl txn f (List.mem_append_left _ hm)
    exact ih (hstep.housed h hfirst) (fun txn f hm => hl txn f (List.mem_append_right _ hm))
      (hstep.whole h hw hrange)

theorem files_insertTuple (e : Engine) (txn : TxnId) (id : TableId) (t : Tuple) :
    (e.insertTuple txn id t).1.disk.files = e.disk.files ∨
      ∃ table, e.catalog.table? id = .ok table ∧ (e.insertTuple txn id t).1.disk.files =
        (e.disk.setContents table.file (PageFile.append e.pageSize (e.disk.contents table.file))).files := by
  unfold insertTuple
  cases ht : e.catalog.table? id with
  | error err => exact .inl rfl
  | ok table =>
    have hfinish := (path_finishChange txn table (e.insertInto txn table t) (.refl _)).files_eq
      (fun page hm => forall_finishEvents (P := (· ≠ .appended page)) (fun _ _ => nofun) (fun _ => nofun)
        (fun _ => nofun) _ _ hm rfl)
      (fun page hm => forall_finishEvents (P := (· ≠ .written page)) (fun _ _ => nofun) (fun _ => nofun)
        (fun _ => nofun) _ _ hm rfl)
    simp only
    rw [hfinish]
    unfold insertInto
    split
    · exact .inl rfl
    · obtain ⟨hwalk, hfiles⟩ := ranged_insertAmong txn table.id t (e.disk.pageCount e.pageSize table) 0 e
      have hsize := hwalk.path.fixed.2.1
      generalize insertAmong txn table.id t (e.disk.pageCount e.pageSize table) 0 e = outcome at hfiles hsize ⊢
      obtain ⟨e₁, result⟩ := outcome
      change e₁.disk.files = _ at hfiles
      change e₁.pageSize = _ at hsize
      cases result with
      | error err => exact .inl hfiles
      | ok found =>
        cases found with
        | some f => exact .inl hfiles
        | none =>
          simp only
          rw [insertAtEnd_eq]
          unfold appendPage Engine.call
          cases e₁.faults.fails .append e₁.faults.next with
          | true => exact .inl hfiles
          | false =>
            refine .inr ⟨table, rfl, ?_⟩
            simp only
            rw [(path_storeAt _ txn _ t).files_eq
              (fun page hm => forall_storeAtEvents (P := (· ≠ .appended page)) nofun (fun _ => nofun) _ hm rfl)
              (fun page hm => forall_storeAtEvents (P := (· ≠ .written page)) nofun (fun _ => nofun) _ hm rfl)]
            show (e₁.disk.setContents table.file (PageFile.append e₁.pageSize (e₁.disk.contents table.file))).files = _
            unfold Disk.setContents Disk.contents
            rw [hfiles, hsize]

def bytesOf (e : Engine) (table : Table) : Bytes := (e.disk.contents table.file).toBytes

/-- An action that flushes nothing leaves the bytes of a file as they are, but for the zero page that an insert may add
at the end. -/
theorem Housed.bytesOf_act (h : e.Housed) (hw : e.Whole) (hr : e.InRange) {a : Action} (ha : ¬ a.Flushes)
    {id : TableId} {table : Table} (ht : e.catalog.table? id = .ok table) :
    (e.act a).bytesOf table = e.bytesOf table ∨
      (∃ txn tuple, a = .ask (.insert txn id tuple)) ∧
        (e.act a).bytesOf table = e.bytesOf table ++ Bytes.zeros e.pageSize := by
  have hsame : (e.act a).disk.files = e.disk.files → (e.act a).bytesOf table = e.bytesOf table := by
    intro hfiles
    unfold bytesOf Disk.contents
    rw [hfiles]
  by_cases hins : ∃ txn id' tuple, a = .ask (.insert txn id' tuple)
  · obtain ⟨txn, id', tuple, rfl⟩ := hins
    rcases files_insertTuple e txn id' tuple with hfiles | ⟨table', ht', hfiles⟩
    · exact .inl (hsame hfiles)
    · have hcontents := Disk.contents_setContents (h.placed _ _ ht')
        (PageFile.append e.pageSize (e.disk.contents table'.file)) table.file
      have hbytes : (e.act (.ask (.insert txn id' tuple))).bytesOf table =
          ((e.disk.setContents table'.file
            (PageFile.append e.pageSize (e.disk.contents table'.file))).contents table.file).toBytes := by
        show ((e.insertTuple txn id' tuple).1.disk.files.getD table.file .empty).toBytes = _
        rw [hfiles]
        rfl
      rw [hbytes, hcontents]
      split
      · rename_i hfile
        cases h.apart _ _ _ _ ht ht' hfile
        cases ht.symm.trans ht'
        obtain ⟨count, hl⟩ := hw _ _ ht
        have hlt := hr _ _ ht
        rw [hl] at hlt
        refine .inr ⟨⟨txn, tuple, rfl⟩, ?_⟩
        exact PageFile.toBytes_append h.pageSize_pos hl (Nat.lt_of_mul_lt_mul_right hlt)
      · exact .inl rfl
  · refine .inl (hsame ((path_act e a).files_eq (fun page hm => ?_) fun page hm => ?_))
    · exact hins (mayLeave_of_mem_events _ hm).inserts
    · exact ha (mayLeave_of_mem_events _ hm).flushes

/-! ## Whole runs -/

theorem Fresh.housed (h : e.Fresh) : e.Housed := h.sound.housed

theorem Fresh.whole (h : e.Fresh) : e.Whole := fun id table ht => ⟨0, by rw [h.empty id table ht, Nat.zero_mul]⟩

/-- Whatever fails in a run from a fresh store: each call to write a page finds the page's record durable, and what a
flush leaves on file is what the marked resident page held, with a durable record. Every other action leaves the bytes
of every file as they are, but for the zero page that an insert may add at the end. -/
theorem logged_before_written (e : Engine) (hfresh : e.Fresh) (as : List Action) (hrange : (e.acts as).InRange) :
    (∀ call ∈ e.callsDuring as, call.1.LoggedFirst call.2) ∧
    ∀ seen a rest, as = seen ++ a :: rest →
      (a.Flushes → ∀ p, ((e.acts seen).act a).image? p = (e.acts seen).image? p ∨
        ∃ page txn, (e.acts seen).copy? p = some page ∧ page.dirtier = some txn ∧
          ((e.acts seen).act a).image? p = some page.encode ∧
          ⟨txn, p, page.beforeImage, page.encode⟩ ∈ ((e.acts seen).act a).logged) ∧
      (¬ a.Flushes → ∀ id table, e.catalog.table? id = .ok table →
        ((e.acts seen).act a).bytesOf table = (e.acts seen).bytesOf table ∨
          (∃ txn tuple, a = .ask (.insert txn id tuple)) ∧
            ((e.acts seen).act a).bytesOf table = (e.acts seen).bytesOf table ++ Bytes.zeros e.pageSize) := by
  refine ⟨loggedFirst_of_mem_callsDuring hfresh.sane as, ?_⟩
  rintro seen a rest rfl
  have hhoused := hfresh.housed.acts seen
  have hpath := path_acts e seen
  have hr : (e.acts seen).InRange := by
    rw [acts_append] at hrange
    exact (path_acts _ (a :: rest)).inRange hrange
  refine ⟨fun ha p => ?_, fun ha id table ht => ?_⟩
  · have hwrites : ∀ event ∈ (e.acts seen).events a, ∃ q, event = .written q := fun event hm =>
      ha.written (mayLeave_of_mem_events event hm)
    rcases (path_act (e.acts seen) a).flushed hhoused hwrites p with ⟨_, hsame⟩ | ⟨page, txn, hc, hd, _, hi, hl⟩
    · exact .inl hsame
    · exact .inr ⟨page, txn, hc, hd, hi, hl⟩
  · have hwhole := (hpath.ranged hr).whole hfresh.housed
      (not_handed_of_mem_history hfresh.toLayout hfresh.sane seen) hfresh.whole
    rw [← hpath.fixed.1] at ht
    have hbytes := hhoused.bytesOf_act hwhole hr ha ht
    rw [hpath.fixed.2.1] at hbytes
    exact hbytes

def rowStored : Engine := flagStore.acts [.ask (.insert ⟨1⟩ ⟨0⟩ (flagRow true))]

/-- A flush that writes the page of an uncommitted row has made its record durable. -/
theorem logged_before_flush :
    ∃ page txn, rowStored.copy? ⟨⟨0⟩, 0⟩ = some page ∧ page.dirtier = some txn ∧
      (rowStored.act (.ask (.flushAll .asListed))).image? ⟨⟨0⟩, 0⟩ = some page.encode ∧
      ⟨txn, ⟨⟨0⟩, 0⟩, page.beforeImage, page.encode⟩ ∈ (rowStored.act (.ask (.flushAll .asListed))).logged := by
  have hrun := (logged_before_written flagStore (fresh_single (by decide) _ _)
    [.ask (.insert ⟨1⟩ ⟨0⟩ (flagRow true)), .ask (.flushAll .asListed)] (inRange_single (by decide +kernel))).2
      [.ask (.insert ⟨1⟩ ⟨0⟩ (flagRow true))] (.ask (.flushAll .asListed)) [] rfl
  exact (hrun.1 trivial ⟨⟨0⟩, 0⟩).resolve_left (by decide +kernel)

end Engine

end RowStore
