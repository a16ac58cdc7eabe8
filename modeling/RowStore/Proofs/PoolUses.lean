import RowStore.Proofs.AccessTrace
import RowStore.Proofs.PoolRuns

/-!
# What a run tells the replacer

The replacer hears of a page when it is found in memory, when it comes into memory and when it is dropped, and it is asked
for a page to give up when there is no room for another. What it hears in a move is computed along the functions that the
move runs, and the replacer after the move is the one before it after just these uses. A fetch whose lock is refused or
whose read fails is not heard of, nor are commits, aborts and flushes.
-/

namespace RowStore

open Replacer (Use)

namespace Replacer

theorem run_append (r : Replacer) (uses more : List Use) : r.run (uses ++ more) = (r.run uses).run more :=
  List.foldl_append ..

end Replacer

namespace Pool

def roomUses (p : Pool) : List Use := if p.resident.size < p.capacity then [] else [.evict p.evictable]

/-- A page that comes into memory is accessed if there is room for it. -/
def enterUses (p : Pool) (id : PageId) : List Use :=
  p.roomUses ++
    match p.makeRoom with
    | .error _ => []
    | .ok _ => [.access id]

def handBackUses (txn : TxnId) : List FrameId → Pool → List Use
  | [], _ => []
  | f :: rest, p =>
    match p.page? f with
    | none => handBackUses txn rest p
    | some page =>
      let p := p.setPage f (page.markDirty (some txn))
      (match p.resident.find? page.id with
        | some _ => [.access page.id]
        | none => p.enterUses page.id) ++
        match p.install f page.id with
        | .error _ => []
        | .ok p => handBackUses txn rest (p.touch page.id)

theorem replacer_makeRoom (p : Pool) :
    match p.makeRoom with
    | .error _ => p.replacer.run p.roomUses = p.replacer
    | .ok q => q.replacer = p.replacer.run p.roomUses := by
  unfold roomUses makeRoom
  by_cases hlt : p.resident.size < p.capacity
  · rw [if_pos hlt, if_pos hlt]
    rfl
  · rw [if_neg hlt, if_neg hlt]
    have hrun : p.replacer.run [.evict p.evictable] = (p.replacer.evict p.evictable).1 := rfl
    rw [hrun]
    unfold evict Replacer.evict
    cases p.replacer.victim? p.evictable <;> rfl

theorem replacer_load (p : Pool) (page : Page) :
    match p.load page with
    | .error _ => p.replacer.run (p.enterUses page.id) = p.replacer
    | .ok (q, _) => q.replacer = p.replacer.run (p.enterUses page.id) := by
  have hroom := p.replacer_makeRoom
  unfold load enterUses
  cases hq : p.makeRoom with
  | error err =>
    rw [hq] at hroom
    simpa only [List.append_nil] using hroom
  | ok q =>
    rw [hq] at hroom
    simp only at hroom ⊢
    rw [Replacer.run_append, ← hroom]
    rfl

theorem replacer_handBack (txn : TxnId) (frames : List FrameId) (p : Pool) :
    (handBack txn frames p).1.replacer = p.replacer.run (handBackUses txn frames p) := by
  induction frames generalizing p with
  | nil => rfl
  | cons f rest ih =>
    unfold handBack handBackUses
    cases p.page? f with
    | none => exact ih p
    | some page =>
      have hmarked : p.replacer = (p.setPage f (page.markDirty (some txn))).replacer := rfl
      simp only
      rw [hmarked]
      generalize p.setPage f (page.markDirty (some txn)) = q
      unfold install enterUses
      cases q.resident.find? page.id with
      | some g =>
        simp only
        rw [ih, Replacer.run_append]
        split <;> rfl
      | none =>
        have hroom := q.replacer_makeRoom
        simp only
        cases hq : q.makeRoom with
        | error err =>
          rw [hq] at hroom
          simpa only [List.append_nil] using hroom.symm
        | ok room =>
          rw [hq] at hroom
          simp only at hroom ⊢
          rw [ih, Replacer.run_append, Replacer.run_append, ← hroom]
          rfl

end Pool

namespace Engine

def fetchUses (e : Engine) (id : PageId) : List Use :=
  match e.pool.resident.find? id with
  | some _ => [.access id]
  | none =>
    match e.readPage id with
    | (_, .error _) => []
    | (e, .ok page) => e.pool.enterUses page.id

def getUses (e : Engine) (txn : TxnId) (id : PageId) (access : Access) : List Use :=
  if (e.locks.request txn id access.lockMode).2 then
    fetchUses { e with locks := (e.locks.request txn id access.lockMode).1 } id
  else []

def insertAmongUses (txn : TxnId) (table : TableId) : (left n : Nat) → Engine → List Use
  | 0, _, _ => []
  | left + 1, n, e =>
    e.getUses txn ⟨table, n⟩ .readWrite ++
      match e.getPage txn ⟨table, n⟩ .readWrite with
      | (_, .error _) => []
      | (e, .ok f) =>
        match e.page? f with
        | none => insertAmongUses txn table left (n + 1) e
        | some page => if 0 < page.freeSlots then [] else insertAmongUses txn table left (n + 1) e

def insertAtEndUses (e : Engine) (txn : TxnId) (table : Table) : List Use :=
  match e.appendPage table with
  | (_, .error _) => []
  | (e, .ok id) => e.getUses txn id .readWrite

def insertIntoUses (e : Engine) (txn : TxnId) (table : Table) (t : Tuple) : List Use :=
  if t.schema ≠ table.schema then []
  else
    insertAmongUses txn table.id (e.disk.pageCount e.pageSize table) 0 e ++
      match insertAmong txn table.id t (e.disk.pageCount e.pageSize table) 0 e with
      | (e, .ok none) => e.insertAtEndUses txn table
      | _ => []

def deleteFromUses (e : Engine) (txn : TxnId) (table : Table) (record : RecordId) : List Use :=
  if record.page.table ≠ table.id ∨ e.disk.pageCount e.pageSize table ≤ record.page.number then []
  else e.getUses txn record.page .readWrite

def followUpUses (txn : TxnId) (id : PageId) (e : Engine) : FollowUp → List Use
  | .discard => [.remove id]
  | .reload => e.getUses txn id .readOnly
  | .fetch n => e.getUses txn ⟨id.table, n⟩ .readOnly

def followUpAllUses (txn : TxnId) (id : PageId) : List FollowUp → Engine → List Use
  | [], _ => []
  | u :: rest, e => followUpUses txn id e u ++ followUpAllUses txn id rest (followUp txn id e u)

def followUpsUses (txn : TxnId) (table : Table) : List FrameId → Engine → List Use
  | [], _ => []
  | f :: rest, e =>
    match e.page? f with
    | none => followUpsUses txn table rest e
    | some page =>
      followUpAllUses txn page.id table.followUps e ++
        followUpsUses txn table rest (table.followUps.foldl (followUp txn page.id) e)

def finishUses (txn : TxnId) (table : Table) : Result (List FrameId) → List Use
  | (_, .error _) => []
  | (e, .ok changed) =>
    followUpsUses txn table changed e ++ Pool.handBackUses txn changed (e.followUps txn table changed).pool

def insertUses (e : Engine) (txn : TxnId) (id : TableId) (t : Tuple) : List Use :=
  match e.catalog.table? id with
  | .error _ => []
  | .ok table => e.insertIntoUses txn table t ++ finishUses txn table (e.insertInto txn table t)

def deleteUses (e : Engine) (txn : TxnId) (record : Option RecordId) : List Use :=
  match record with
  | none => []
  | some r =>
    match e.catalog.table? r.page.table with
    | .error _ => []
    | .ok table => e.deleteFromUses txn table r ++ finishUses txn table (e.deleteFrom txn table (some r))

def fillUses (txn : TxnId) (table : TableId) : (left : Nat) → Engine → Cursor → List Use
  | 0, _, _ => []
  | left + 1, e, c =>
    if c.buffered.isEmpty then
      e.getUses txn ⟨table, c.nextPage⟩ .readOnly ++
        match e.rowsOf txn ⟨table, c.nextPage⟩ with
        | (_, .error _) => []
        | (e, .ok rows) => fillUses txn table left e ⟨c.nextPage + 1, c.pageCount, rows⟩
    else []

def rowsUses (txn : TxnId) (table : TableId) : (left n : Nat) → Engine → List Use
  | 0, _, _ => []
  | left + 1, n, e =>
    e.getUses txn ⟨table, n⟩ .readOnly ++
      match e.rowsOf txn ⟨table, n⟩ with
      | (_, .error _) => []
      | (e, .ok _) => rowsUses txn table left (n + 1) e

def actUses (e : Engine) : Action → List Use
  | .ask (.get txn page access) => e.getUses txn page access
  | .ask (.insert txn id t) => e.insertUses txn id t
  | .ask (.delete txn record) => e.deleteUses txn record
  | .ask (.discard page) => [.remove page]
  | .ask _ => []
  | .next s => s.cursor.elim [] fun c => fillUses s.txn s.table.id (c.pageCount - c.nextPage) e c
  | .scan txn id =>
    match e.catalog.table? id with
    | .error _ => []
    | .ok table => rowsUses txn table.id (e.disk.pageCount e.pageSize table) 0 e

/-- What the replacer is told in a move, in order. -/
def uses (e : Engine) : Move → List Use
  | .act a => e.actUses a
  | .insertInto txn id t =>
    match e.catalog.table? id with
    | .error _ => []
    | .ok table => e.insertIntoUses txn table t
  | .deleteFrom txn id record =>
    match e.catalog.table? id with
    | .error _ => []
    | .ok table => e.deleteFromUses txn table record
  | .handBack txn frames => Pool.handBackUses txn frames e.pool
  | .change .. | .writing _ | .surroundings _ => []

/-- The replacer has been told some uses, and nothing else, between two states. -/
def Told (e : Engine) (uses : List Use) (e' : Engine) : Prop := e'.pool.replacer = e.pool.replacer.run uses

variable {e e₁ e' : Engine}

theorem Told.trans {uses more : List Use} (h : Told e uses e₁) (h' : Told e₁ more e') : Told e (uses ++ more) e' := by
  unfold Told at h h' ⊢
  rw [h', h, Replacer.run_append]

theorem Told.quiet {uses : List Use} (h : Told e uses e₁) (h' : e'.pool.replacer = e₁.pool.replacer) :
    Told e uses e' := h'.trans h

theorem told_fetch (e : Engine) (id : PageId) : Told e (e.fetchUses id) (e.fetch id).1 := by
  unfold fetch fetchUses
  cases e.pool.resident.find? id with
  | some f => rfl
  | none =>
    obtain ⟨traffic, hread⟩ := e.readPage_eq id
    simp only [hread]
    cases e.readAt e.faults.next id with
    | error err => rfl
    | ok page =>
      have hload := e.pool.replacer_load page
      simp only
      cases hq : e.pool.load page with
      | error err =>
        rw [hq] at hload
        exact hload.symm
      | ok loaded =>
        rw [hq] at hload
        exact hload

theorem told_getPage (e : Engine) (txn : TxnId) (id : PageId) (access : Access) :
    Told e (e.getUses txn id access) (e.getPage txn id access).1 := by
  rw [getPage_eq, getUses]
  split
  · exact told_fetch { e with locks := (e.locks.request txn id access.lockMode).1 } id
  · rfl

theorem storeIn_replacer (e : Engine) (txn : TxnId) (f : FrameId) (page : Page) (t : Tuple) :
    (e.storeIn txn f page t).1.pool.replacer = e.pool.replacer := by
  unfold storeIn
  cases page.insert t <;> rfl

theorem told_insertAmong (txn : TxnId) (table : TableId) (t : Tuple) (left n : Nat) (e : Engine) :
    Told e (insertAmongUses txn table left n e) (insertAmong txn table t left n e).1 := by
  induction left generalizing n e with
  | zero => rfl
  | succ left ih =>
    have hget := e.told_getPage txn ⟨table, n⟩ .readWrite
    unfold insertAmongUses insertAmong
    generalize e.getPage txn ⟨table, n⟩ .readWrite = outcome at hget ⊢
    obtain ⟨e₁, err | f⟩ := outcome
    · rwa [List.append_nil]
    · simp only
      cases e₁.page? f with
      | none => exact hget.trans (ih (n + 1) e₁)
      | some page =>
        simp only
        split
        · have hstore := e₁.storeIn_replacer txn f page t
          generalize e₁.storeIn txn f page t = stored at hstore ⊢
          rw [List.append_nil]
          obtain ⟨e₂, err | g⟩ := stored
          · exact hget.quiet hstore
          · exact hget.quiet hstore
        · exact hget.trans (ih (n + 1) e₁)

theorem told_insertAtEnd (e : Engine) (txn : TxnId) (table : Table) (t : Tuple) :
    Told e (e.insertAtEndUses txn table) (e.insertAtEnd txn table t).1 := by
  have happend : (e.appendPage table).1.pool.replacer = e.pool.replacer := by
    unfold appendPage call
    cases e.faults.fails .append e.faults.next <;> rfl
  unfold insertAtEndUses insertAtEnd
  generalize e.appendPage table = outcome at happend ⊢
  obtain ⟨e₁, err | id⟩ := outcome
  · exact happend
  · have hget := e₁.told_getPage txn id .readWrite
    have hquiet : Told e [] e₁ := happend
    have hstart : Told e (e₁.getUses txn id .readWrite) (e₁.getPage txn id .readWrite).1 := hquiet.trans hget
    simp only
    generalize e₁.getPage txn id .readWrite = fetched at hstart ⊢
    obtain ⟨e₂, err | f⟩ := fetched
    · exact hstart
    · simp only
      cases e₂.page? f with
      | none => exact hstart
      | some page =>
        have hstore := e₂.storeIn_replacer txn f page t
        simp only
        generalize e₂.storeIn txn f page t = stored at hstore ⊢
        obtain ⟨e₃, err | g⟩ := stored
        · exact hstart.quiet hstore
        · exact hstart.quiet hstore

theorem told_insertInto (e : Engine) (txn : TxnId) (table : Table) (t : Tuple) :
    Told e (e.insertIntoUses txn table t) (e.insertInto txn table t).1 := by
  unfold insertIntoUses insertInto
  split
  · rfl
  · have hamong := told_insertAmong txn table.id t (e.disk.pageCount e.pageSize table) 0 e
    generalize insertAmong txn table.id t (e.disk.pageCount e.pageSize table) 0 e = outcome at hamong ⊢
    obtain ⟨e₁, err | found⟩ := outcome
    · rwa [List.append_nil]
    · cases found with
      | some f => rwa [List.append_nil]
      | none => exact hamong.trans (told_insertAtEnd e₁ txn table t)

theorem told_deleteFrom (e : Engine) (txn : TxnId) (table : Table) (record : RecordId) :
    Told e (e.deleteFromUses txn table record) (e.deleteFrom txn table (some record)).1 := by
  unfold deleteFromUses deleteFrom
  simp only
  split
  · rfl
  · have hget := e.told_getPage txn record.page .readWrite
    generalize e.getPage txn record.page .readWrite = outcome at hget ⊢
    obtain ⟨e₁, err | f⟩ := outcome
    · exact hget
    · simp only
      cases e₁.page? f with
      | none => exact hget
      | some page =>
        simp only
        cases page.delete (some record) <;> exact hget

theorem told_followUpAll (txn : TxnId) (id : PageId) (us : List FollowUp) (e : Engine) :
    Told e (followUpAllUses txn id us e) (us.foldl (followUp txn id) e) := by
  induction us generalizing e with
  | nil => rfl
  | cons u rest ih =>
    refine Told.trans ?_ (ih _)
    cases u with
    | discard => rfl
    | reload => exact told_getPage ..
    | fetch n => exact told_getPage ..

theorem told_followUps (txn : TxnId) (table : Table) (changed : List FrameId) (e : Engine) :
    Told e (followUpsUses txn table changed e) (e.followUps txn table changed) := by
  induction changed generalizing e with
  | nil => rfl
  | cons f rest ih =>
    unfold followUpsUses followUps
    rw [List.foldl_cons]
    cases e.page? f with
    | none => exact ih e
    | some page => exact (told_followUpAll txn page.id table.followUps e).trans (ih _)

theorem told_finishChange {uses : List Use} (txn : TxnId) (table : Table) (r : Result (List FrameId))
    (h : Told e uses r.1) : Told e (uses ++ finishUses txn table r) (finishChange txn table r).1 := by
  obtain ⟨e₁, err | changed⟩ := r
  · rwa [finishUses, List.append_nil]
  · exact h.trans ((told_followUps txn table changed e₁).trans (Pool.replacer_handBack txn changed _))

theorem told_insertTuple (e : Engine) (txn : TxnId) (id : TableId) (t : Tuple) :
    Told e (e.insertUses txn id t) (e.insertTuple txn id t).1 := by
  unfold insertUses insertTuple
  cases e.catalog.table? id with
  | error err => rfl
  | ok table => exact told_finishChange txn table _ (told_insertInto e txn table t)

theorem told_deleteTuple (e : Engine) (txn : TxnId) (record : Option RecordId) :
    Told e (e.deleteUses txn record) (e.deleteTuple txn record).1 := by
  unfold deleteUses deleteTuple
  cases record with
  | none => rfl
  | some r =>
    simp only
    cases e.catalog.table? r.page.table with
    | error err => rfl
    | ok table => exact told_finishChange txn table _ (told_deleteFrom e txn table r)

theorem told_rowsOf (e : Engine) (txn : TxnId) (id : PageId) :
    Told e (e.getUses txn id .readOnly) (e.rowsOf txn id).1 := by
  have hget := e.told_getPage txn id .readOnly
  unfold rowsOf
  generalize e.getPage txn id .readOnly = outcome at hget ⊢
  obtain ⟨e₁, err | f⟩ := outcome <;> exact hget

theorem told_fill (txn : TxnId) (table : TableId) (left : Nat) (e : Engine) (c : Cursor) :
    Told e (fillUses txn table left e c) (fill txn table left e c).1 := by
  induction left generalizing e c with
  | zero => rfl
  | succ left ih =>
    unfold fillUses fill
    split
    · have hrows := e.told_rowsOf txn ⟨table, c.nextPage⟩
      generalize e.rowsOf txn ⟨table, c.nextPage⟩ = outcome at hrows ⊢
      obtain ⟨e₁, err | rows⟩ := outcome
      · rwa [List.append_nil]
      · exact hrows.trans (ih e₁ _)
    · rfl

theorem told_nextTuple (e : Engine) (s : Scan) :
    Told e (s.cursor.elim [] fun c => fillUses s.txn s.table.id (c.pageCount - c.nextPage) e c) (e.nextTuple s).1 := by
  unfold nextTuple
  cases s.cursor with
  | none => rfl
  | some c =>
    have hfill := told_fill s.txn s.table.id (c.pageCount - c.nextPage) e c
    simp only [Option.elim_some]
    generalize fill s.txn s.table.id (c.pageCount - c.nextPage) e c = outcome at hfill ⊢
    obtain ⟨e₁, c₁, err | _⟩ := outcome
    · exact hfill
    · simp only
      cases c₁.buffered <;> exact hfill

theorem told_rowsAmong (txn : TxnId) (table : TableId) (left n : Nat) (e : Engine) :
    Told e (rowsUses txn table left n e) (rowsAmong txn table left n e).1 := by
  induction left generalizing n e with
  | zero => rfl
  | succ left ih =>
    have hrows := e.told_rowsOf txn ⟨table, n⟩
    unfold rowsUses rowsAmong
    generalize e.rowsOf txn ⟨table, n⟩ = outcome at hrows ⊢
    obtain ⟨e₁, err | rows⟩ := outcome
    · rwa [List.append_nil]
    · exact hrows.trans (ih (n + 1) e₁)

theorem logAndForce_pool (e : Engine) (txn : TxnId) (page : Page) : (e.logAndForce txn page).1.pool = e.pool := by
  obtain ⟨_, ⟨log, faults, hstate⟩, _⟩ := logAndForce_cases e txn page
  rw [hstate]

theorem replacer_commitPages (txn : TxnId) (frames : List FrameId) (e : Engine) :
    (commitPages txn frames e).1.pool.replacer = e.pool.replacer := by
  induction frames generalizing e with
  | nil => rfl
  | cons f rest ih =>
    have hpage : (e.commitPage txn f).1.pool.replacer = e.pool.replacer := by
      unfold commitPage
      cases e.page? f with
      | none => rfl
      | some page =>
        have hlog := congrArg Pool.replacer (e.logAndForce_pool txn page)
        simp only
        generalize e.logAndForce txn page = outcome at hlog ⊢
        obtain ⟨e₁, err | _⟩ := outcome <;> exact hlog
    unfold commitPages
    generalize e.commitPage txn f = outcome at hpage ⊢
    obtain ⟨e₁, err | _⟩ := outcome
    · exact hpage
    · exact (ih e₁).trans hpage

theorem replacer_rollbackPages (frames : List FrameId) (e : Engine) :
    (rollbackPages frames e).1.pool.replacer = e.pool.replacer := by
  induction frames generalizing e with
  | nil => rfl
  | cons f rest ih =>
    have hpage : (e.rollbackPage f).1.pool.replacer = e.pool.replacer := by
      unfold rollbackPage
      cases e.page? f with
      | none => rfl
      | some page =>
        obtain ⟨traffic, hread⟩ := e.readPage_eq page.id
        simp only [hread]
        cases e.readAt e.faults.next page.id <;> rfl
    unfold rollbackPages
    generalize e.rollbackPage f = outcome at hpage ⊢
    obtain ⟨e₁, err | _⟩ := outcome <;> exact (ih e₁).trans hpage

theorem replacer_complete (e : Engine) (txn : TxnId) (commit : Bool) (sweep : Sweep) :
    (e.complete txn commit sweep).1.pool.replacer = e.pool.replacer := by
  unfold complete
  cases commit with
  | true => exact replacer_commitPages txn _ e
  | false => exact replacer_rollbackPages _ e

theorem replacer_writeBack (e : Engine) (f : FrameId) : (e.writeBack f).1.pool.replacer = e.pool.replacer := by
  unfold writeBack
  cases e.page? f with
  | none => rfl
  | some page =>
    simp only
    cases page.dirtier with
    | none => rfl
    | some txn =>
      have hlog := congrArg Pool.replacer (e.logAndForce_pool txn page)
      simp only
      generalize e.logAndForce txn page = outcome at hlog ⊢
      obtain ⟨e₁, err | _⟩ := outcome
      · exact hlog
      · have hwrite : (e₁.writePage page).1.pool.replacer = e₁.pool.replacer := by
          unfold writePage call
          cases e₁.catalog.table? page.id.table with
          | error err => rfl
          | ok table => cases e₁.faults.fails .write e₁.faults.next <;> rfl
        simp only
        generalize e₁.writePage page = written at hwrite ⊢
        obtain ⟨e₂, err | _⟩ := written <;> exact hwrite.trans hlog

theorem replacer_writeBackAll (frames : List FrameId) (e : Engine) :
    (writeBackAll frames e).1.pool.replacer = e.pool.replacer := by
  induction frames generalizing e with
  | nil => rfl
  | cons f rest ih =>
    have hpage := e.replacer_writeBack f
    unfold writeBackAll
    generalize e.writeBack f = outcome at hpage ⊢
    obtain ⟨e₁, err | _⟩ := outcome
    · exact hpage
    · exact (ih e₁).trans hpage

theorem told_act (e : Engine) (a : Action) : Told e (e.actUses a) (e.act a) := by
  cases a with
  | ask r =>
    cases r with
    | get txn page access => exact told_getPage ..
    | insert txn id t => exact told_insertTuple ..
    | delete txn record => exact told_deleteTuple ..
    | commit txn sweep => exact replacer_complete e txn true sweep
    | abort txn sweep => exact replacer_complete e txn false sweep
    | flush page =>
      show Told e [] (e.flushPage page).1
      unfold flushPage
      cases e.pool.resident.find? page with
      | none => rfl
      | some f => exact replacer_writeBack e f
    | flushTxn txn sweep => exact replacer_writeBackAll _ e
    | flushAll sweep => exact replacer_writeBackAll _ e
    | discard page => rfl
    | release txn page => rfl
  | next s => exact told_nextTuple e s
  | scan txn id =>
    simp only [actUses, act, scanAll]
    cases e.catalog.table? id with
    | error err => rfl
    | ok table => exact told_rowsAmong ..

/-- The replacer is told in a move what the functions that run in it tell it, and nothing else. -/
theorem told_move (e : Engine) (m : Move) : Told e (e.uses m) (e.move m) := by
  cases m with
  | act a => exact told_act e a
  | insertInto txn id t =>
    simp only [uses, move]
    cases e.catalog.table? id with
    | error err => rfl
    | ok table => exact told_insertInto e txn table t
  | deleteFrom txn id record =>
    simp only [uses, move]
    cases e.catalog.table? id with
    | error err => rfl
    | ok table => exact told_deleteFrom e txn table record
  | change f page =>
    simp only [uses, move]
    split <;> rfl
  | handBack txn frames => exact Pool.replacer_handBack txn frames e.pool
  | writing | surroundings => rfl

def usesOf (e : Engine) : List Move → List Use
  | [] => []
  | m :: rest => e.uses m ++ (e.move m).usesOf rest

end Engine

end RowStore
