import RowStore.Proofs.Baselines
import RowStore.Proofs.CommitOutcomes

/-!
# What an abort does to the store

An abort reads every page that its transaction has marked again from its file, each into the frame that holds it, and a
page that cannot be read stops none of the others. So an abort is known from its reads: the call numbers at which they
are made follow from the order of the pass alone, and each is answered by the table, the fault or the file of its page
whatever the others have done. The main result says page by page what is left, for any pattern of reads that fail, in
every state that moves lead to from an empty pool without locks.
-/

namespace RowStore

/-- One read of an abort: the page in a frame, and what reading it gave. -/
structure Reload where
  frame : FrameId
  page : PageId
  outcome : Except StorageError Page

/-- The pool after reads: each page that could be read is in its frame. -/
def Pool.reload (p : Pool) (reloads : List Reload) : Pool :=
  reloads.foldl (fun p r => match r.outcome with
    | .ok fresh => p.setPage r.frame fresh
    | .error _ => p) p

/-- The answer to an abort: the first page that could not be read, with the reason. -/
def firstFailure : List Reload → Except StorageError Unit
  | [] => .ok ()
  | r :: rest =>
    match r.outcome with
    | .ok _ => firstFailure rest
    | .error cause => .error (.recoveryFailed r.page cause)

theorem firstFailure_eq_ok_iff {reloads : List Reload} :
    firstFailure reloads = .ok () ↔ ∀ r ∈ reloads, ∃ fresh, r.outcome = .ok fresh := by
  induction reloads with
  | nil => exact ⟨fun _ => List.forall_mem_nil _, fun _ => rfl⟩
  | cons r rest ih =>
    rw [List.forall_mem_cons, ← ih, firstFailure]
    cases r.outcome with
    | ok fresh => exact ⟨fun h => ⟨⟨fresh, rfl⟩, h⟩, And.right⟩
    | error cause => exact ⟨nofun, by rintro ⟨⟨_, h⟩, _⟩; cases h⟩

theorem of_firstFailure_eq_error {reloads : List Reload} {err : StorageError} (h : firstFailure reloads = .error err) :
    ∃ r ∈ reloads, ∃ cause, r.outcome = .error cause ∧ err = .recoveryFailed r.page cause := by
  induction reloads with
  | nil => cases h
  | cons r rest ih =>
    rw [firstFailure] at h
    cases hr : r.outcome with
    | ok fresh =>
      rw [hr] at h
      obtain ⟨r', hr', hcause⟩ := ih h
      exact ⟨r', List.mem_cons_of_mem r hr', hcause⟩
    | error cause =>
      rw [hr] at h
      cases h
      exact ⟨r, List.mem_cons_self, cause, hr, rfl⟩

namespace Pool

theorem exists_reload (p : Pool) (reloads : List Reload) : ∃ frames, p.reload reloads = { p with frames := frames } := by
  induction reloads generalizing p with
  | nil => exact ⟨p.frames, rfl⟩
  | cons r rest ih =>
    unfold reload
    rw [List.foldl_cons]
    cases r.outcome with
    | ok fresh => exact ih (p.setPage r.frame fresh)
    | error cause => exact ih p

theorem page?_reload_of_not_mem {p : Pool} {reloads : List Reload} {f : FrameId} (h : f ∉ reloads.map Reload.frame) :
    (p.reload reloads).page? f = p.page? f := by
  induction reloads generalizing p with
  | nil => rfl
  | cons r rest ih =>
    rw [List.map_cons, List.mem_cons, not_or] at h
    unfold reload
    rw [List.foldl_cons]
    refine (ih h.2).trans ?_
    cases r.outcome with
    | ok fresh => exact Array.getElem?_setIfInBounds_ne (Ne.symm h.1)
    | error cause => rfl

/-- With one read for each frame a frame has the page that was read into it, or the one that it had. -/
theorem page?_reload {p : Pool} {reloads : List Reload} (hd : (reloads.map Reload.frame).Nodup) {r : Reload}
    (hr : r ∈ reloads) {old : Page} (hold : p.page? r.frame = some old) :
    (p.reload reloads).page? r.frame = match r.outcome with
      | .ok fresh => some fresh
      | .error _ => some old := by
  induction reloads generalizing p with
  | nil => cases hr
  | cons r' rest ih =>
    rw [List.map_cons, List.nodup_cons] at hd
    unfold reload
    rw [List.foldl_cons]
    rcases List.mem_cons.mp hr with rfl | hr
    · refine (page?_reload_of_not_mem hd.1).trans ?_
      cases r.outcome with
      | ok fresh => exact (page?_setPage hold fresh r.frame).trans (if_pos rfl)
      | error cause => exact hold
    · have hne : r'.frame ≠ r.frame := fun he => hd.1 (he ▸ List.mem_map_of_mem hr)
      refine ih hd.2 hr ?_
      cases r'.outcome with
      | ok fresh => exact (Array.getElem?_setIfInBounds_ne hne).trans hold
      | error cause => exact hold

end Pool

namespace Engine

variable {e : Engine} {txn : TxnId}

/-- The reads of the pages in some frames, if the first is made as call number `n`. -/
def reloads (e : Engine) : Nat → List FrameId → List Reload
  | _, [] => []
  | n, f :: rest =>
    match e.page? f with
    | none => e.reloads n rest
    | some page => ⟨f, page.id, e.readAt n page.id⟩ :: e.reloads (e.afterRead n page.id) rest

theorem reloads_cons {f : FrameId} {page : Page} (hf : e.page? f = some page) (n : Nat) (rest : List FrameId) :
    e.reloads n (f :: rest) = ⟨f, page.id, e.readAt n page.id⟩ :: e.reloads (e.afterRead n page.id) rest := by
  rw [reloads, hf]

/-- The store after reads: the pool that they leave, other counts of page reads and a later call number. -/
def afterReads (e : Engine) (pool : Pool) (traffic : Dict TableId Traffic) (next : Nat) : Engine :=
  { e with pool := pool, disk := ⟨e.disk.files, traffic⟩, faults := { e.faults with next := next } }

/-- What reads give does not depend on what other reads have left, as long as the frames hold the same pages. -/
theorem reloads_afterReads {pool : Pool} {frames : List FrameId} (hp : ∀ f ∈ frames, pool.page? f = e.page? f)
    (traffic : Dict TableId Traffic) (next n : Nat) :
    (e.afterReads pool traffic next).reloads n frames = e.reloads n frames := by
  induction frames generalizing n with
  | nil => rfl
  | cons f rest ih =>
    obtain ⟨hhead, hrest⟩ := List.forall_mem_cons.mp hp
    have hread : (e.afterReads pool traffic next).readAt = e.readAt := by
      funext n id
      exact @readAt_congr e (e.afterReads pool traffic next) rfl rfl rfl rfl n id
    unfold reloads
    rw [show (e.afterReads pool traffic next).page? f = e.page? f from hhead, hread]
    cases e.page? f with
    | none => exact ih hrest n
    | some page => exact congrArg (List.cons _) (ih hrest _)

theorem frame_reloads {frames : List FrameId} (hf : ∀ f ∈ frames, (e.page? f).isSome) (n : Nat) :
    (e.reloads n frames).map Reload.frame = frames := by
  induction frames generalizing n with
  | nil => rfl
  | cons f rest ih =>
    obtain ⟨hhead, hrest⟩ := List.forall_mem_cons.mp hf
    obtain ⟨page, hpage⟩ := Option.isSome_iff_exists.mp hhead
    rw [reloads_cons hpage, List.map_cons, ih hrest]

/-- A read is made of the page in its frame, at some call from the first on. -/
theorem of_mem_reloads {n : Nat} {frames : List FrameId} {r : Reload} (h : r ∈ e.reloads n frames) :
    r.frame ∈ frames ∧ (∃ page, e.page? r.frame = some page ∧ page.id = r.page) ∧
      ∃ call ≥ n, r.outcome = e.readAt call r.page := by
  induction frames generalizing n with
  | nil => cases h
  | cons f rest ih =>
    cases hf : e.page? f with
    | none =>
      rw [reloads, hf] at h
      obtain ⟨hmem, hrest⟩ := ih h
      exact ⟨List.mem_cons_of_mem f hmem, hrest⟩
    | some page =>
      rw [reloads_cons hf] at h
      rcases List.mem_cons.mp h with rfl | h
      · exact ⟨List.mem_cons_self, ⟨page, hf, rfl⟩, n, Nat.le_refl n, rfl⟩
      · obtain ⟨hmem, hpage, call, hcall, hout⟩ := ih h
        have hafter : n ≤ e.afterRead n page.id := by
          unfold afterRead
          split <;> omega
        exact ⟨List.mem_cons_of_mem f hmem, hpage, call, Nat.le_trans hafter hcall, hout⟩

theorem page_reloads (n : Nat) (frames : List FrameId) :
    (e.reloads n frames).map Reload.page = (frames.filterMap e.page?).map Page.id := by
  induction frames generalizing n with
  | nil => rfl
  | cons f rest ih =>
    cases hf : e.page? f with
    | none =>
      rw [reloads, hf, List.filterMap_cons_none hf]
      exact ih n
    | some page =>
      rw [reloads_cons hf, List.filterMap_cons_some hf, List.map_cons, List.map_cons, ih]

/-- A pass of reads puts what could be read into the frames, counts its calls and answers with the first failure. -/
theorem rollbackPages_eq {frames : List FrameId} (hd : frames.Nodup) (hf : ∀ f ∈ frames, (e.page? f).isSome) :
    ∃ traffic next, rollbackPages frames e =
      (e.afterReads (e.pool.reload (e.reloads e.faults.next frames)) traffic next,
        firstFailure (e.reloads e.faults.next frames)) := by
  induction frames generalizing e with
  | nil => exact ⟨e.disk.traffic, e.faults.next, rfl⟩
  | cons f rest ih =>
    obtain ⟨hnot, hd⟩ := List.nodup_cons.mp hd
    obtain ⟨hhead, hrest⟩ := List.forall_mem_cons.mp hf
    obtain ⟨page, hpage⟩ := Option.isSome_iff_exists.mp hhead
    obtain ⟨traffic, hread⟩ := e.readPage_eq page.id
    -- The rest of the pass reads the same pages as from the start, whether this page could be read or not.
    have hlater : ∀ pool : Pool, (∀ g ∈ rest, pool.page? g = e.page? g) →
        ∃ traffic' next, rollbackPages rest (e.afterReads pool traffic (e.afterRead e.faults.next page.id)) =
          (e.afterReads (pool.reload (e.reloads (e.afterRead e.faults.next page.id) rest)) traffic' next,
            firstFailure (e.reloads (e.afterRead e.faults.next page.id) rest)) := by
      intro pool hpool
      have hsome : ∀ g ∈ rest, (pool.page? g).isSome := fun g hg => by rw [hpool g hg]; exact hrest g hg
      have hnext := ih (e := e.afterReads pool traffic (e.afterRead e.faults.next page.id)) hd hsome
      rw [reloads_afterReads hpool] at hnext
      exact hnext
    rw [reloads_cons hpage]
    unfold rollbackPages rollbackPage
    rw [hpage]
    simp only [hread]
    cases hout : e.readAt e.faults.next page.id with
    | error cause =>
      obtain ⟨traffic', next, hpass⟩ := hlater e.pool fun _ _ => rfl
      refine ⟨traffic', next, ?_⟩
      show ((rollbackPages rest (e.afterReads e.pool traffic (e.afterRead e.faults.next page.id))).1, _) = _
      rw [hpass]
      rfl
    | ok fresh =>
      obtain ⟨traffic', next, hpass⟩ := hlater (e.pool.setPage f fresh) fun g hg => by
        rw [Pool.page?_setPage hpage, if_neg fun he : f = g => hnot (he ▸ hg)]
        rfl
      exact ⟨traffic', next, hpass⟩

theorem image_of_onFile {id : PageId} {fresh : Page} (h : e.onFile id = .ok fresh) :
    ∃ table image, e.catalog.table? id.table = .ok table ∧
      PageFile.page? e.pageSize id.number (e.disk.contents table.file) = some image ∧
      Page.decode e.pageSize id table.schema image = .ok fresh ∧ fresh.dirtier = none ∧ fresh.beforeImage = image := by
  have hclean := clean_of_onFile h
  unfold onFile Disk.readPage at h
  cases ht : e.catalog.table? id.table with
  | error err =>
    rw [ht] at h
    cases h
  | ok table =>
    simp only [ht] at h
    split at h
    · cases h
    · cases himage : PageFile.page? e.pageSize id.number (e.disk.contents table.file) with
      | none =>
        rw [himage] at h
        cases h
      | some image =>
        rw [himage] at h
        refine ⟨table, image, rfl, himage, h, hclean, ?_⟩
        rw [Page.beforeImage_of_decode h, ← PageFile.length_of_page? himage, List.take_length]

/-- An abort went through with some reads and gave a result. Each page that its transaction had marked was read once. If
that succeeded the same frame holds the decoded image from the file, otherwise it holds the page as it was, marked. The
result is a failure if and only if a read failed, and then it names such a read. Nothing else has changed but that the
transaction has ended, the counts of page reads apart. -/
structure RolledBack (e : Engine) (txn : TxnId) (reloads : List Reload) (result : Except StorageError Unit)
    (e' : Engine) : Prop where
  once : (reloads.map Reload.page).Nodup
  marked : ∀ id, id ∈ reloads.map Reload.page ↔ e.mark? id = some txn
  read : ∀ r ∈ reloads, ∃ n ≥ e.faults.next, r.outcome = e.readAt n r.page
  reloaded : ∀ r ∈ reloads, ∀ fresh, r.outcome = .ok fresh →
    e.pool.resident.find? r.page = some r.frame ∧ e'.page? r.frame = some fresh ∧
    ∃ table image, e.catalog.table? r.page.table = .ok table ∧
      PageFile.page? e.pageSize r.page.number (e.disk.contents table.file) = some image ∧
      Page.decode e.pageSize r.page table.schema image = .ok fresh ∧ fresh.dirtier = none ∧ fresh.beforeImage = image
  left : ∀ r ∈ reloads, ∀ cause, r.outcome = .error cause →
    ∃ page, e.copy? r.page = some page ∧ page.dirtier = some txn ∧ e'.copy? r.page = some page
  ok : result = .ok () ↔ ∀ r ∈ reloads, ∃ fresh, r.outcome = .ok fresh
  failed : ∀ err, result = .error err →
    ∃ r ∈ reloads, ∃ cause, r.outcome = .error cause ∧ err = .recoveryFailed r.page cause
  kept : ∀ f, f ∉ e.pool.dirtiedBy txn → e'.page? f = e.page? f
  log : e'.log = e.log
  ended : ∃ traffic, Ended { e with disk := ⟨e.disk.files, traffic⟩ } txn e'

/-- A read of an abort is made of a page that its transaction has marked, in its resident frame. -/
theorem marked_of_mem_reloads (hs : e.pool.Sane) {sweep : Sweep} {n : Nat} {r : Reload}
    (h : r ∈ e.reloads n (sweep.order (e.pool.dirtiedBy txn))) :
    ∃ page, e.pool.resident.find? r.page = some r.frame ∧ e.page? r.frame = some page ∧ page.dirtier = some txn := by
  obtain ⟨hf, ⟨page, hpage, hid⟩, _⟩ := of_mem_reloads h
  obtain ⟨id, hres⟩ := resident_of_mem_dirtiedBy hf
  have hsame := hs.id_of_copy? (Pool.copy?_of_resident hres hpage)
  have hmark := (mem_pages_of_commit hs txn sweep page).mp (List.mem_filterMap.mpr ⟨_, hf, hpage⟩)
  rw [← hid, hsame]
  exact ⟨page, hres, hpage, hmark.2⟩

theorem mem_pages_of_abort (hs : e.pool.Sane) (sweep : Sweep) (n : Nat) (id : PageId) :
    id ∈ (e.reloads n (sweep.order (e.pool.dirtiedBy txn))).map Reload.page ↔ e.mark? id = some txn := by
  rw [page_reloads, List.mem_map]
  constructor
  · rintro ⟨page, hpage, rfl⟩
    obtain ⟨hcopy, hmark⟩ := (mem_pages_of_commit hs txn sweep page).mp hpage
    exact Option.bind_eq_some_iff.mpr ⟨page, hcopy, hmark⟩
  · intro hmark
    obtain ⟨page, hcopy, hd⟩ := Option.bind_eq_some_iff.mp hmark
    have hid := hs.id_of_copy? hcopy
    exact ⟨page, (mem_pages_of_commit hs txn sweep page).mpr ⟨by rwa [hid], hd⟩, hid⟩

/-- Every abort, whatever the order of its pass and whichever of its reads fail, does what `RolledBack` says. -/
theorem abort_exact (h : e.Reached) (txn : TxnId) (sweep : Sweep) :
    RolledBack e txn (e.reloads e.faults.next (sweep.order (e.pool.dirtiedBy txn))) (e.complete txn false sweep).2
      (e.complete txn false sweep).1 := by
  obtain ⟨hs, hp⟩ := h.sound
  obtain ⟨hd, hsome⟩ := frames_of_commit hs txn sweep
  obtain ⟨traffic, next, hpass⟩ := rollbackPages_eq hd hsome
  have hframes := frame_reloads hsome e.faults.next
  have hmarked := fun r => @marked_of_mem_reloads e txn hs sweep e.faults.next r
  have hpages := @mem_pages_of_abort e txn hs sweep e.faults.next
  have honce := page_reloads e.faults.next _ ▸ nodup_pages_of_commit hs txn sweep
  have hreads := fun r => @of_mem_reloads e e.faults.next (sweep.order (e.pool.dirtiedBy txn)) r
  have hstate : e.complete txn false sweep =
      ({ e.afterReads (e.pool.reload (e.reloads e.faults.next (sweep.order (e.pool.dirtiedBy txn)))) traffic next with
          locks := (e.locks.releaseAll txn).1 },
        firstFailure (e.reloads e.faults.next (sweep.order (e.pool.dirtiedBy txn)))) := by
    unfold complete
    simp only [Bool.false_eq_true, if_false, hpass]
    rfl
  rw [hstate]
  generalize e.reloads e.faults.next (sweep.order (e.pool.dirtiedBy txn)) = reloads at *
  have hnodup := hframes ▸ hd
  obtain ⟨array, harray⟩ := e.pool.exists_reload reloads
  refine ⟨honce, hpages, fun r hr => (hreads r hr).2.2, fun r hr fresh hok => ?_, fun r hr cause herr => ?_,
    firstFailure_eq_ok_iff, fun err => of_firstFailure_eq_error, fun f hf => ?_, rfl, traffic, ?_⟩
  · obtain ⟨page, hres, hpage, _⟩ := hmarked r hr
    obtain ⟨n, _, hn⟩ := (hreads r hr).2.2
    refine ⟨hres, ?_, image_of_onFile (onFile_of_readAt (hn.symm.trans hok))⟩
    refine (Pool.page?_reload hnodup hr hpage).trans ?_
    rw [hok]
  · obtain ⟨page, hres, hpage, hmark⟩ := hmarked r hr
    have hkept : (e.pool.reload reloads).page? r.frame = some page := by
      rw [Pool.page?_reload hnodup hr hpage, herr]
    refine ⟨page, Pool.copy?_of_resident hres hpage, hmark, Pool.copy?_of_resident ?_ hkept⟩
    show (e.pool.reload reloads).resident.find? r.page = some r.frame
    rw [harray]
    exact hres
  · refine Pool.page?_reload_of_not_mem ?_
    rw [hframes]
    exact fun hm => hf ((sweep.perm _).mem_iff.mp hm)
  · unfold afterReads
    rw [harray]
    exact ended_of_pass (e := { e with disk := ⟨e.disk.files, traffic⟩ }) hp txn array e.log _

def readFailsAt (call : Nat) : Device → Nat → Bool
  | .read, n => n = call
  | _, _ => false

/-- Where the first of two pages cannot be read, the second is reloaded all the same, and the first stays as it was. -/
theorem abort_exact_of_failed_read :
    RolledBack (twoPages (readFailsAt 4)) ⟨1⟩ ((twoPages (readFailsAt 4)).reloads 4 [0, 1])
      (.error (.recoveryFailed ⟨⟨0⟩, 0⟩ (failure .read))) ((twoPages (readFailsAt 4)).complete ⟨1⟩ false .asListed).1 ∧
    (((twoPages (readFailsAt 4)).complete ⟨1⟩ false .asListed).1.copy? ⟨⟨0⟩, 0⟩).map Page.encode = some [1, 1] ∧
    (((twoPages (readFailsAt 4)).complete ⟨1⟩ false .asListed).1.copy? ⟨⟨0⟩, 1⟩).map Page.encode = some [0, 0] :=
  ⟨abort_exact (reached_twoPages _) ⟨1⟩ .asListed, by decide +kernel, by decide +kernel⟩

end Engine

end RowStore
