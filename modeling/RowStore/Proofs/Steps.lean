import RowStore.Proofs.History
import RowStore.Proofs.LockModes
import RowStore.Proofs.PoolRoom

/-!
# The smallest steps of the engine

Whatever the engine is asked, its state changes only by the steps listed in `Step`: counters, log records, granted
locks, loads of pages that are not resident, rows stored and removed under an exclusive lock, zero pages, baselines,
writes behind the log, reloads in an abort, and the ends of transactions. Each step carries what the engine has checked
before it. Fetching a page and changing one are paths of these steps.
-/

namespace RowStore

theorem Page.id_of_decode {size : Nat} {id : PageId} {schema : Schema} {data : Bytes} {p : Page}
    (h : Page.decode size id schema data = .ok p) : p.id = id := by
  unfold Page.decode at h
  split at h
  · cases h
  · simp only at h
    split at h
    · cases h
    · cases h
      rfl

namespace Engine

/-- What reading a page from its file gives. -/
def onFile (e : Engine) (id : PageId) : Except StorageError Page :=
  match e.catalog.table? id.table with
  | .error err => .error err
  | .ok table => (e.disk.readPage e.pageSize table id).2

/-- A step of the engine, with the event that it leaves in the history, if any. -/
inductive Step : Engine → List Event → Engine → Prop
  | call (e : Engine) (device : Device) : Step e [] (e.call device).1
  | countRead (e : Engine) (table : TableId) : Step e [] { e with disk := e.disk.countRead table }
  | log (e : Engine) (r : UpdateRecord) : Step e [] { e with log := e.log.append r }
  | force (e : Engine) : Step e [] { e with log := e.log.force }
  | touch {e : Engine} {id : PageId} {f : FrameId} (hr : e.pool.resident.find? id = some f) :
      Step e [] { e with pool := e.pool.touch id }
  | load {e : Engine} {page : Page} {pool : Pool} {f : FrameId} (hn : e.pool.resident.find? page.id = none)
      (hp : e.onFile page.id = .ok page) (hl : e.pool.load page = .ok (pool, f)) :
      Step e [] { e with pool := pool }
  | grant {e : Engine} {txn : TxnId} {id : PageId} {mode : LockMode} (h : (e.locks.request txn id mode).2 = true) :
      Step e [.granted txn id mode] { e with locks := (e.locks.request txn id mode).1 }
  | store {e : Engine} {txn : TxnId} {id : PageId} {f : FrameId} {page page' : Page} {t : Tuple} {r : RecordId}
      (hr : e.pool.resident.find? id = some f) (hf : e.page? f = some page)
      (hx : e.locks.modeOf? txn id = some .exclusive) (hi : page.insert t = .ok (page', r)) :
      Step e [.stored txn r t] (e.setPage f (page'.markDirty (some txn)))
  | remove {e : Engine} {txn : TxnId} {id : PageId} {f : FrameId} {page page' : Page} {r : RecordId}
      (hr : e.pool.resident.find? id = some f) (hf : e.page? f = some page)
      (hx : e.locks.modeOf? txn id = some .exclusive) (hd : page.delete (some r) = .ok page') :
      Step e [.removed txn r] (e.setPage f (page'.markDirty (some txn)))
  | append {e : Engine} {id : TableId} {table : Table} (ht : e.catalog.table? id = .ok table) :
      Step e [.appended ⟨table.id, e.disk.pageCount e.pageSize table⟩]
        { e with disk := (e.disk.appendPage e.pageSize table).1 }
  | base {e : Engine} {id : PageId} {f : FrameId} {page : Page}
      (hr : e.pool.resident.find? id = some f) (hf : e.page? f = some page) :
      Step e [.based page.id] (e.setPage f page.setBeforeImage)
  | write {e : Engine} {id : PageId} {f : FrameId} {page : Page} {txn : TxnId} {table : Table}
      (hr : e.pool.resident.find? id = some f) (hf : e.page? f = some page) (hd : page.dirtier = some txn)
      (hl : ⟨txn, page.id, page.beforeImage, page.encode⟩ ∈ e.log.records.take e.log.durable)
      (ht : e.catalog.table? page.id.table = .ok table) (hi : page.id.table = table.id) :
      Step e [.written page.id]
        ({ e with disk := (e.disk.writePage table page).1 }.setPage f (page.markDirty none))
  | restore {e : Engine} {id : PageId} {f : FrameId} {page fresh : Page}
      (hr : e.pool.resident.find? id = some f) (hf : e.page? f = some page)
      (hp : e.onFile page.id = .ok fresh) : Step e [.restored page.id] (e.setPage f fresh)
  | discard (e : Engine) (id : PageId) : Step e [.discarded id] (e.discardPage id)
  | hand (e : Engine) (txn : TxnId) (f : FrameId) :
      Step e [.handed txn f] { e with pool := (Pool.handBack txn [f] e.pool).1 }
  | complete (e : Engine) (txn : TxnId) :
      Step e [.completed txn] { e with locks := (e.locks.releaseAll txn).1 }
  | release (e : Engine) (txn : TxnId) (id : PageId) :
      Step e [.released txn id] { e with locks := (e.locks.release txn id).1 }

inductive Path : Engine → List Event → Engine → Prop
  | refl (e : Engine) : Path e [] e
  | step {e m e' : Engine} {l l' : List Event} (h : Step e l m) (rest : Path m l' e') : Path e (l ++ l') e'

namespace Path

theorem one {e e' : Engine} {l : List Event} (h : Step e l e') : Path e l e' := by
  have hp := Path.step h (.refl e')
  rwa [List.append_nil] at hp

theorem trans {e m e' : Engine} {l l' : List Event} (h : Path e l m) (h' : Path m l' e') :
    Path e (l ++ l') e' := by
  induction h with
  | refl => exact h'
  | step hs _ ih =>
    rw [List.append_assoc]
    exact .step hs (ih h')

theorem quiet {e m e' : Engine} {l : List Event} (h : Path e l m) (h' : Path m [] e') : Path e l e' := by
  have hp := h.trans h'
  rwa [List.append_nil] at hp

/-- What every step preserves holds at the end of a path if it holds at the beginning. -/
theorem preserves {I : Engine → Prop} (hI : ∀ e l e', Step e l e' → I e → I e') {e e' : Engine} {l : List Event}
    (h : Path e l e') (h0 : I e) : I e' := by
  induction h with
  | refl => exact h0
  | step hs _ ih => exact ih (hI _ _ _ hs h0)

end Path

theorem Step.catalog_eq {e e' : Engine} {l : List Event} (h : Step e l e') : e'.catalog = e.catalog := by
  cases h <;> rfl

theorem Path.catalog_eq {e e' : Engine} {l : List Event} (h : Path e l e') : e'.catalog = e.catalog := by
  induction h with
  | refl => rfl
  | step hs _ ih => rw [ih, hs.catalog_eq]

/-! ## Fetching -/

/-- Brings a page into memory after its lock was granted. -/
def fetch (e : Engine) (id : PageId) : Result FrameId :=
  match e.pool.resident.find? id with
  | some f => ({ e with pool := e.pool.touch id }, .ok f)
  | none =>
    match e.readPage id with
    | (e, .error err) => (e, .error err)
    | (e, .ok page) =>
      match e.pool.load page with
      | .error err => (e, .error err)
      | .ok (pool, f) => ({ e with pool := pool }, .ok f)

/-- A fetch takes the lock or gives up, and a refused lock changes nothing. -/
theorem getPage_eq (e : Engine) (txn : TxnId) (id : PageId) (access : Access) :
    e.getPage txn id access =
      if (e.locks.request txn id access.lockMode).2 then
        fetch { e with locks := (e.locks.request txn id access.lockMode).1 } id
      else (e, .error (.transactionAborted txn)) := by
  have hr := @LockTable.request_refused e.locks txn id access.lockMode
  unfold getPage LockTable.acquire
  generalize hq : e.locks.request txn id access.lockMode = q at hr ⊢
  obtain ⟨locks, granted⟩ := q
  cases granted with
  | true => rfl
  | false =>
    cases hr rfl
    rfl

/-- A read changes nothing but counters, and what it reads is what lies on the file. -/
theorem readPage_cases (e : Engine) (id : PageId) :
    Path e [] (e.readPage id).1 ∧
      (∃ faults traffic, (e.readPage id).1 = { e with faults := faults, disk := ⟨e.disk.files, traffic⟩ }) ∧
      ∀ page, (e.readPage id).2 = .ok page → e.onFile id = .ok page := by
  unfold readPage onFile
  cases ht : e.catalog.table? id.table with
  | error err => exact ⟨.refl e, ⟨_, _, rfl⟩, by rintro page ⟨⟩⟩
  | ok table =>
    have hc := Step.call e .read
    cases hcall : e.call .read with
    | mk e₁ failed =>
      have he₁ : e₁ = { e with faults := { e.faults with next := e.faults.next + 1 } } := congrArg Prod.fst hcall.symm
      rw [hcall] at hc
      cases failed with
      | true => exact ⟨.one hc, ⟨_, _, he₁⟩, by rintro page ⟨⟩⟩
      | false =>
        subst he₁
        simp only
        unfold Disk.readPage
        by_cases hid : id.table ≠ table.id
        · rw [if_pos hid]
          exact ⟨.one hc, ⟨_, _, rfl⟩, by rintro page ⟨⟩⟩
        · rw [if_neg hid]
          cases PageFile.page? e.pageSize id.number (e.disk.contents table.file) with
          | none => exact ⟨.one hc, ⟨_, _, rfl⟩, by rintro page ⟨⟩⟩
          | some image =>
            exact ⟨.step hc (.one (.countRead _ table.id)), ⟨_, _, rfl⟩, fun page hp => hp⟩

/-- What reading a page gives if the next outside call is call number `n`. -/
def readAt (e : Engine) (n : Nat) (id : PageId) : Except StorageError Page :=
  match e.catalog.table? id.table with
  | .error err => .error err
  | .ok _ => if e.faults.fails .read n then .error (failure .read) else e.onFile id

/-- The number of the outside call that comes after a read. A table that is not there is not called. -/
def afterRead (e : Engine) (n : Nat) (id : PageId) : Nat :=
  match e.catalog.table? id.table with
  | .error _ => n
  | .ok _ => n + 1

theorem readPage_eq (e : Engine) (id : PageId) :
    ∃ traffic, e.readPage id =
      ({ e with faults := { e.faults with next := e.afterRead e.faults.next id }, disk := ⟨e.disk.files, traffic⟩ },
        e.readAt e.faults.next id) := by
  unfold readPage readAt afterRead onFile Engine.call
  cases ht : e.catalog.table? id.table with
  | error err => exact ⟨_, rfl⟩
  | ok table =>
    cases e.faults.fails .read e.faults.next with
    | true => exact ⟨_, rfl⟩
    | false =>
      simp only [Bool.false_eq_true, if_false]
      unfold Disk.readPage
      by_cases hid : id.table ≠ table.id
      · rw [if_pos hid]
        exact ⟨_, rfl⟩
      · rw [if_neg hid]
        cases PageFile.page? e.pageSize id.number (e.disk.contents table.file) with
        | none => exact ⟨_, rfl⟩
        | some image => exact ⟨_, rfl⟩

/-- A page that is read from a file is decoded from some image of it. -/
theorem decode_of_onFile {e : Engine} {id : PageId} {page : Page} (h : e.onFile id = .ok page) :
    ∃ schema image, Page.decode e.pageSize id schema image = .ok page := by
  unfold onFile at h
  split at h
  · cases h
  · unfold Disk.readPage at h
    split at h
    · cases h
    · split at h
      · cases h
      · exact ⟨_, _, h⟩

theorem id_of_onFile {e : Engine} {id : PageId} {page : Page} (h : e.onFile id = .ok page) : page.id = id := by
  obtain ⟨_, _, hd⟩ := decode_of_onFile h
  exact Page.id_of_decode hd

theorem onFile_congr {e e' : Engine} (hc : e'.catalog = e.catalog) (hs : e'.pageSize = e.pageSize)
    (hd : e'.disk.files = e.disk.files) (id : PageId) : e'.onFile id = e.onFile id := by
  unfold onFile Disk.readPage Disk.contents
  rw [hc, hs, hd]
  cases e.catalog.table? id.table with
  | error err => rfl
  | ok table =>
    simp only
    split
    · rfl
    · split <;> rfl

theorem readAt_congr {e e' : Engine} (hc : e'.catalog = e.catalog) (hs : e'.pageSize = e.pageSize)
    (hd : e'.disk.files = e.disk.files) (hf : e'.faults.fails = e.faults.fails) (n : Nat) (id : PageId) :
    e'.readAt n id = e.readAt n id := by
  unfold readAt
  rw [hc, hf, onFile_congr hc hs hd]

theorem onFile_of_readAt {e : Engine} {n : Nat} {id : PageId} {page : Page} (h : e.readAt n id = .ok page) :
    e.onFile id = .ok page := by
  unfold readAt at h
  split at h
  · cases h
  · split at h
    · cases h
    · exact h

theorem path_fetch (e : Engine) (id : PageId) : Path e [] (e.fetch id).1 := by
  unfold fetch
  cases hr : e.pool.resident.find? id with
  | some f => exact .one (.touch hr)
  | none =>
    obtain ⟨hp, ⟨faults, traffic, he⟩, hok⟩ := readPage_cases e id
    generalize e.readPage id = result at hp he hok
    obtain ⟨e₁, result⟩ := result
    cases result with
    | error err => exact hp
    | ok page =>
      have hpage := hok page rfl
      have hid := id_of_onFile hpage
      change e₁ = _ at he
      subst he
      simp only
      cases hl : e.pool.load page with
      | error err => exact hp
      | ok loaded =>
        obtain ⟨pool, f⟩ := loaded
        have hfile : onFile { e with faults := faults, disk := ⟨e.disk.files, traffic⟩ } page.id = .ok page := by
          rw [hid, ← hpage]
          apply onFile_congr <;> rfl
        exact hp.quiet (.one (.load (by rw [hid]; exact hr) hfile hl))

theorem path_getPage (e : Engine) (txn : TxnId) (id : PageId) (access : Access) :
    Path e (e.getEvents txn id access) (e.getPage txn id access).1 := by
  rw [getPage_eq, getEvents]
  split
  · rename_i hg
    have hp := (Path.one (.grant hg)).trans (path_fetch _ id)
    rwa [List.append_nil] at hp
  · exact .refl e

theorem fetch_ok {e e' : Engine} {id : PageId} {f : FrameId} (h : e.fetch id = (e', .ok f)) :
    e'.locks = e.locks ∧ e'.pool.resident.find? id = some f := by
  unfold fetch at h
  cases hr : e.pool.resident.find? id with
  | some g =>
    rw [hr] at h
    cases h
    exact ⟨rfl, hr⟩
  | none =>
    rw [hr] at h
    obtain ⟨_, ⟨faults, traffic, he⟩, hok⟩ := readPage_cases e id
    generalize e.readPage id = result at h he hok
    obtain ⟨e₁, result⟩ := result
    cases result with
    | error err => cases h
    | ok page =>
      change e₁ = _ at he
      subst he
      simp only at h
      cases hl : e.pool.load page with
      | error err =>
        rw [hl] at h
        cases h
      | ok loaded =>
        rw [hl] at h
        cases h
        refine ⟨rfl, ?_⟩
        rw [← id_of_onFile (hok page rfl)]
        exact Pool.find?_load hl

/-- After a successful fetch the page is resident in the frame that was answered, under a granted lock. -/
theorem getPage_ok {e e' : Engine} {txn : TxnId} {id : PageId} {access : Access} {f : FrameId}
    (h : e.getPage txn id access = (e', .ok f)) :
    (e.locks.request txn id access.lockMode).2 = true ∧ e'.locks = (e.locks.request txn id access.lockMode).1 ∧
      e'.pool.resident.find? id = some f := by
  rw [getPage_eq] at h
  split at h
  · rename_i hg
    obtain ⟨hl, hr⟩ := fetch_ok h
    exact ⟨hg, hl, hr⟩
  · cases h

theorem exclusive_of_getPage {e e' : Engine} {txn : TxnId} {id : PageId} {f : FrameId}
    (h : e.getPage txn id .readWrite = (e', .ok f)) : e'.locks.modeOf? txn id = some .exclusive := by
  obtain ⟨hg, hl, _⟩ := getPage_ok h
  rw [hl, LockTable.modeOf?_request hg, if_pos ⟨rfl, rfl⟩]
  show some (LockMode.joined _ .exclusive) = _
  unfold LockMode.joined
  split <;> rfl

/-! ## Storing and removing -/

theorem path_storeIn {e : Engine} {txn : TxnId} {id : PageId} {f : FrameId} {page : Page} (t : Tuple)
    (hr : e.pool.resident.find? id = some f) (hf : e.page? f = some page)
    (hx : e.locks.modeOf? txn id = some .exclusive) :
    Path e (storeEvents txn page t) (e.storeIn txn f page t).1 := by
  unfold storeEvents storeIn
  cases hi : page.insert t with
  | error err => exact .refl e
  | ok stored => exact .one (.store hr hf hx hi)

theorem path_insertAmong (txn : TxnId) (table : TableId) (t : Tuple) (left n : Nat) (e : Engine) :
    Path e (insertAmongEvents txn table t left n e) (insertAmong txn table t left n e).1 := by
  induction left generalizing n e with
  | zero => exact .refl e
  | succ left ih =>
    have hp := path_getPage e txn ⟨table, n⟩ .readWrite
    unfold insertAmongEvents insertAmong
    cases hget : e.getPage txn ⟨table, n⟩ .readWrite with
    | mk e₁ result =>
      rw [hget] at hp
      cases result with
      | error err => exact hp.trans (.refl e₁)
      | ok f =>
        obtain ⟨_, _, hr⟩ := getPage_ok hget
        simp only
        cases hf : e₁.page? f with
        | none => exact hp.trans (ih (n + 1) e₁)
        | some page =>
          simp only
          split
          · have hs := path_storeIn t hr hf (exclusive_of_getPage hget)
            generalize e₁.storeIn txn f page t = outcome at hs ⊢
            obtain ⟨e₂, stored⟩ := outcome
            cases stored <;> exact hp.trans hs
          · exact hp.trans (ih (n + 1) e₁)

theorem path_storeAt (e : Engine) (txn : TxnId) (id : PageId) (t : Tuple) :
    Path e (e.storeAtEvents txn id t) (e.storeAt txn id t).1 := by
  unfold storeAtEvents storeAt
  have hp := path_getPage e txn id .readWrite
  cases hget : e.getPage txn id .readWrite with
  | mk e₁ result =>
    rw [hget] at hp
    cases result with
    | error err => exact hp.trans (.refl e₁)
    | ok f =>
      obtain ⟨_, _, hr⟩ := getPage_ok hget
      simp only
      cases hf : e₁.page? f with
      | none => exact hp.trans (.refl e₁)
      | some page =>
        have hs := path_storeIn t hr hf (exclusive_of_getPage hget)
        simp only [Option.elim_some]
        generalize e₁.storeIn txn f page t = outcome at hs ⊢
        obtain ⟨e₂, stored⟩ := outcome
        cases stored <;> exact hp.trans hs

theorem path_appendPage {e : Engine} {id : TableId} {table : Table} (ht : e.catalog.table? id = .ok table) :
    match e.appendPage table with
    | (e', .error _) => Path e [] e'
    | (e', .ok new) => new = ⟨table.id, e.disk.pageCount e.pageSize table⟩ ∧ Path e [.appended new] e' := by
  unfold appendPage
  have hc := Step.call e .append
  unfold Engine.call at hc ⊢
  cases e.faults.fails .append e.faults.next with
  | true => exact .one hc
  | false => exact ⟨rfl, (Path.one hc).trans (.one (.append ht))⟩

theorem path_insertAtEnd {e : Engine} {txn : TxnId} {id : TableId} {table : Table} (t : Tuple)
    (ht : e.catalog.table? id = .ok table) :
    Path e (e.insertAtEndEvents txn table t) (e.insertAtEnd txn table t).1 := by
  have ha := path_appendPage ht
  rw [insertAtEnd_eq]
  unfold insertAtEndEvents
  generalize e.appendPage table = outcome at ha ⊢
  obtain ⟨e₁, result⟩ := outcome
  cases result with
  | error err => exact ha
  | ok new => exact ha.2.trans (path_storeAt e₁ txn new t)

theorem path_insertInto {e : Engine} {txn : TxnId} {id : TableId} {table : Table} (t : Tuple)
    (ht : e.catalog.table? id = .ok table) :
    Path e (e.insertIntoEvents txn table t) (e.insertInto txn table t).1 := by
  unfold insertIntoEvents insertInto
  split
  · exact .refl e
  · have hp := path_insertAmong txn table.id t (e.disk.pageCount e.pageSize table) 0 e
    generalize insertAmong txn table.id t (e.disk.pageCount e.pageSize table) 0 e = outcome at hp ⊢
    obtain ⟨e₁, result⟩ := outcome
    cases result with
    | error err => exact hp.trans (.refl e₁)
    | ok found =>
      cases found with
      | some f => exact hp.trans (.refl e₁)
      | none =>
        refine hp.trans (path_insertAtEnd t (show e₁.catalog.table? id = .ok table from ?_))
        rw [← ht, ← hp.catalog_eq]

theorem path_deleteFrom (e : Engine) (txn : TxnId) (table : Table) (record : RecordId) :
    Path e (e.deleteFromEvents txn table record) (e.deleteFrom txn table (some record)).1 := by
  unfold deleteFromEvents deleteFrom
  simp only
  split
  · exact .refl e
  · have hp := path_getPage e txn record.page .readWrite
    cases hget : e.getPage txn record.page .readWrite with
    | mk e₁ result =>
      rw [hget] at hp
      cases result with
      | error err => exact hp.trans (.refl e₁)
      | ok f =>
        obtain ⟨_, _, hr⟩ := getPage_ok hget
        simp only
        cases hf : e₁.page? f with
        | none => exact hp.trans (.refl e₁)
        | some page =>
          simp only [Option.elim_some, removeEvents]
          cases hd : page.delete (some record) with
          | error err => exact hp.trans (.refl e₁)
          | ok page' => exact hp.trans (.one (.remove hr hf (exclusive_of_getPage hget) hd))

end Engine

end RowStore
