import RowStore.Proofs.Steps

/-!
# Actions as paths

Every operation of the engine is a path of smallest steps with exactly the operation's events, and so is every action.
Together with the paths of fetches and changes this is the one place that walks through the engine's code: an
invariant has to be shown for the steps only, and `path_act` carries it over to the actions.
-/

namespace RowStore

namespace Engine

theorem path_followUpAll (txn : TxnId) (id : PageId) (us : List FollowUp) (e : Engine) :
    Path e (followUpAllEvents txn id us e) (us.foldl (followUp txn id) e) := by
  induction us generalizing e with
  | nil => exact .refl e
  | cons u rest ih =>
    refine Path.trans ?_ (ih _)
    cases u with
    | discard => exact .one (.discard e id)
    | reload => exact path_getPage ..
    | fetch n => exact path_getPage ..

theorem path_followUps (txn : TxnId) (table : Table) (changed : List FrameId) (e : Engine) :
    Path e (followUpsEvents txn table changed e) (e.followUps txn table changed) := by
  induction changed generalizing e with
  | nil => exact .refl e
  | cons f rest ih =>
    unfold followUpsEvents followUps
    rw [List.foldl_cons]
    cases hf : e.page? f with
    | none => exact ih e
    | some page => exact (path_followUpAll txn page.id table.followUps e).trans (ih _)

theorem handBack_kept {p : Pool} {txn : TxnId} {f : FrameId} (h : keptBy p txn f = true) :
    ∃ page, p.page? f = some page ∧ p.resident.find? page.id = some f ∧
      Pool.handBack txn [f] p = (p.touch page.id, .ok ()) := by
  unfold keptBy at h
  obtain ⟨page, hf, hk⟩ := (Option.any_eq_true _ _).mp h
  rw [Bool.and_eq_true, decide_eq_true_eq, decide_eq_true_eq] at hk
  obtain ⟨hd, hr⟩ := hk
  refine ⟨page, hf, hr, ?_⟩
  have hmark : page.markDirty (some txn) = page := by
    rw [Page.markDirty, ← hd]
  have hset : p.setPage f page = p := by
    obtain ⟨hlt, hget⟩ := Array.getElem?_eq_some_iff.mp hf
    rw [Pool.setPage, ← hget, Array.setIfInBounds_def, dif_pos hlt, Array.set_getElem_self]
  rw [Pool.handBack, hf]
  simp only [hmark, hset, Pool.install, hr, if_true]
  rfl

theorem handBack_cons (txn : TxnId) (f : FrameId) (rest : List FrameId) (p : Pool) :
    Pool.handBack txn (f :: rest) p =
      match Pool.handBack txn [f] p with
      | (p, .error err) => (p, .error err)
      | (p, .ok ()) => Pool.handBack txn rest p := by
  simp only [Pool.handBack]
  cases p.page? f with
  | none => rfl
  | some page =>
    simp only
    cases (p.setPage f (page.markDirty (some txn))).install f page.id <;> rfl

theorem path_handBack (txn : TxnId) (changed : List FrameId) (e : Engine) :
    Path e (handBackEvents txn changed e.pool) { e with pool := (Pool.handBack txn changed e.pool).1 } := by
  induction changed generalizing e with
  | nil => exact .refl e
  | cons f rest ih =>
    have hone : Path e (if (e.pool.page? f).isNone || keptBy e.pool txn f then [] else [.handed txn f])
        { e with pool := (Pool.handBack txn [f] e.pool).1 } := by
      by_cases hn : e.pool.page? f = none
      · rw [if_pos (by rw [hn]; rfl), Pool.handBack, hn]
        exact .refl e
      · by_cases hk : keptBy e.pool txn f = true
        · obtain ⟨page, hf, hr, hb⟩ := handBack_kept hk
          rw [if_pos (by rw [hk, Bool.or_true]), hb]
          exact .one (.touch hr)
        · rw [if_neg (by simpa [hn] using hk)]
          exact .one (.hand e txn f)
    unfold handBackEvents
    rw [handBack_cons txn f rest e.pool]
    generalize Pool.handBack txn [f] e.pool = outcome at hone ⊢
    obtain ⟨p, result⟩ := outcome
    cases result with
    | error err => exact hone.trans (.refl _)
    | ok _ => exact hone.trans (ih { e with pool := p })

theorem path_finishChange {e₀ : Engine} (txn : TxnId) (table : Table) {l : List Event} (r : Result (List FrameId))
    (h : Path e₀ l r.1) : Path e₀ (l ++ finishEvents txn table r) (finishChange txn table r).1 := by
  obtain ⟨e, result⟩ := r
  cases result with
  | error err => exact h.trans (.refl e)
  | ok changed =>
    exact h.trans ((path_followUps txn table changed e).trans (path_handBack txn changed _))

theorem path_insertTuple (e : Engine) (txn : TxnId) (id : TableId) (t : Tuple) :
    Path e (e.insertEvents txn id t) (e.insertTuple txn id t).1 := by
  unfold insertEvents insertTuple
  cases ht : e.catalog.table? id with
  | error err => exact .refl e
  | ok table => exact path_finishChange txn table _ (path_insertInto t ht)

theorem path_deleteTuple (e : Engine) (txn : TxnId) (record : Option RecordId) :
    Path e (e.deleteEvents txn record) (e.deleteTuple txn record).1 := by
  unfold deleteEvents deleteTuple
  cases record with
  | none => exact .refl e
  | some r =>
    simp only
    cases e.catalog.table? r.page.table with
    | error err => exact .refl e
    | ok table => exact path_finishChange txn table _ (path_deleteFrom e txn table r)

/-- Logging a page touches nothing but the log and the count of calls, and after it succeeds the record is durable. -/
theorem logAndForce_cases (e : Engine) (txn : TxnId) (page : Page) :
    Path e [] (e.logAndForce txn page).1 ∧
      (∃ log faults, (e.logAndForce txn page).1 = { e with log := log, faults := faults }) ∧
      ((e.logAndForce txn page).2 = .ok () →
        ⟨txn, page.id, page.beforeImage, page.encode⟩ ∈
          (e.logAndForce txn page).1.log.records.take (e.logAndForce txn page).1.log.durable) := by
  unfold logAndForce logPage
  have hc := Step.call e .logWrite
  cases hcall : e.call .logWrite with
  | mk e₁ failed =>
    have he₁ : e₁ = { e with faults := { e.faults with next := e.faults.next + 1 } } := congrArg Prod.fst hcall.symm
    rw [hcall] at hc
    cases failed with
    | true => exact ⟨.one hc, ⟨_, _, he₁⟩, by rintro ⟨⟩⟩
    | false =>
      subst he₁
      have hl := (Path.one hc).quiet (.one (.log _ ⟨txn, page.id, page.beforeImage, page.encode⟩))
      simp only
      unfold forceLog
      have hf := Step.call { e with
        log := e.log.append ⟨txn, page.id, page.beforeImage, page.encode⟩
        faults := { e.faults with next := e.faults.next + 1 } } .force
      generalize hcall' : call _ .force = called at hf ⊢
      obtain ⟨e₂, failed⟩ := called
      have he₂ := congrArg Prod.fst hcall'.symm
      cases failed with
      | true => exact ⟨hl.quiet (.one hf), ⟨_, _, he₂⟩, by rintro ⟨⟩⟩
      | false =>
        change e₂ = _ at he₂
        subst he₂
        refine ⟨(hl.quiet (.one hf)).quiet (.one (.force _)), ⟨_, _, rfl⟩, fun _ => ?_⟩
        show _ ∈ (e.log.records ++ [_]).take (e.log.records ++ [_]).length
        rw [List.take_length]
        exact List.mem_append_right _ List.mem_cons_self

theorem path_commitPage {e : Engine} {id : PageId} {f : FrameId} (txn : TxnId)
    (hr : e.pool.resident.find? id = some f) :
    (e.commitPage txn f).1.pool.resident = e.pool.resident ∧
      Path e (match e.commitPage txn f with
        | (_, .error _) => []
        | (_, .ok ()) => (e.page? f).elim [] fun page => [.based page.id]) (e.commitPage txn f).1 := by
  unfold commitPage
  cases hf : e.page? f with
  | none => exact ⟨rfl, .refl e⟩
  | some page =>
    obtain ⟨hp, ⟨log, faults, he⟩, _⟩ := logAndForce_cases e txn page
    simp only
    generalize e.logAndForce txn page = outcome at hp he ⊢
    obtain ⟨e₁, result⟩ := outcome
    change e₁ = _ at he
    subst he
    cases result with
    | error err => exact ⟨rfl, hp⟩
    | ok _ => exact ⟨rfl, hp.trans (.one (.base hr hf))⟩

theorem resident_rest {e e' : Engine} {f : FrameId} {rest : List FrameId}
    (h : ∀ g ∈ f :: rest, ∃ id, e.pool.resident.find? id = some g) (hres : e'.pool.resident = e.pool.resident) :
    ∀ g ∈ rest, ∃ id, e'.pool.resident.find? id = some g := by
  intro g hg
  rw [hres]
  exact h g (List.mem_cons_of_mem f hg)

theorem path_commitPages (txn : TxnId) (frames : List FrameId) (e : Engine)
    (h : ∀ f ∈ frames, ∃ id, e.pool.resident.find? id = some f) :
    Path e (commitEvents txn frames e) (commitPages txn frames e).1 := by
  induction frames generalizing e with
  | nil => exact .refl e
  | cons f rest ih =>
    obtain ⟨id, hr⟩ := h f List.mem_cons_self
    obtain ⟨hres, hp⟩ := path_commitPage txn hr
    unfold commitEvents commitPages
    generalize e.commitPage txn f = outcome at hres hp ⊢
    obtain ⟨e₁, result⟩ := outcome
    change e₁.pool.resident = _ at hres
    cases result with
    | error err => exact hp
    | ok _ => exact hp.trans (ih e₁ (resident_rest h hres))

theorem path_rollbackPage {e : Engine} {id : PageId} {f : FrameId} (hr : e.pool.resident.find? id = some f) :
    (e.rollbackPage f).1.pool.resident = e.pool.resident ∧
      Path e (match e.rollbackPage f with
        | (_, .error _) => []
        | (_, .ok ()) => (e.page? f).elim [] fun page => [.restored page.id]) (e.rollbackPage f).1 := by
  unfold rollbackPage
  cases hf : e.page? f with
  | none => exact ⟨rfl, .refl e⟩
  | some page =>
    obtain ⟨hp, ⟨faults, traffic, he⟩, hok⟩ := readPage_cases e page.id
    simp only
    generalize e.readPage page.id = outcome at hp he hok ⊢
    obtain ⟨e₁, result⟩ := outcome
    change e₁ = _ at he
    subst he
    cases result with
    | error err => exact ⟨rfl, hp⟩
    | ok fresh =>
      have hfile : onFile { e with faults := faults, disk := ⟨e.disk.files, traffic⟩ } page.id = .ok fresh := by
        rw [← hok fresh rfl]
        apply onFile_congr <;> rfl
      exact ⟨rfl, hp.trans (.one (.restore hr hf hfile))⟩

theorem path_rollbackPages (frames : List FrameId) (e : Engine)
    (h : ∀ f ∈ frames, ∃ id, e.pool.resident.find? id = some f) :
    Path e (rollbackEvents frames e) (rollbackPages frames e).1 := by
  induction frames generalizing e with
  | nil => exact .refl e
  | cons f rest ih =>
    obtain ⟨id, hr⟩ := h f List.mem_cons_self
    obtain ⟨hres, hp⟩ := path_rollbackPage hr
    unfold rollbackEvents rollbackPages
    generalize e.rollbackPage f = outcome at hres hp ⊢
    obtain ⟨e₁, result⟩ := outcome
    change e₁.pool.resident = _ at hres
    have hrest := ih e₁ (resident_rest h hres)
    cases result <;> exact hp.trans hrest

theorem resident_of_mem_dirtiedBy {e : Engine} {txn : TxnId} {sweep : Sweep} {f : FrameId}
    (h : f ∈ sweep.order (e.pool.dirtiedBy txn)) : ∃ id, e.pool.resident.find? id = some f := by
  have hm := (sweep.perm _).mem_iff.mp h
  exact Dict.exists_find?_of_mem_values (List.mem_filter.mp hm).1

theorem resident_of_mem_residentFrames {e : Engine} {sweep : Sweep} {f : FrameId}
    (h : f ∈ sweep.order e.pool.residentFrames) : ∃ id, e.pool.resident.find? id = some f :=
  Dict.exists_find?_of_mem_values ((sweep.perm _).mem_iff.mp h)

theorem path_complete (e : Engine) (txn : TxnId) (commit : Bool) (sweep : Sweep) :
    Path e (e.completeEvents txn commit sweep) (e.complete txn commit sweep).1 := by
  unfold completeEvents complete
  cases commit with
  | true => exact (path_commitPages txn _ e fun _ => resident_of_mem_dirtiedBy).trans (.one (.complete _ txn))
  | false => exact (path_rollbackPages _ e fun _ => resident_of_mem_dirtiedBy).trans (.one (.complete _ txn))

theorem path_writeBack {e : Engine} {id : PageId} {f : FrameId} (hr : e.pool.resident.find? id = some f) :
    (e.writeBack f).1.pool.resident = e.pool.resident ∧ Path e (e.writeEvents f) (e.writeBack f).1 := by
  unfold writeEvents writeBack
  cases hf : e.page? f with
  | none => exact ⟨rfl, .refl e⟩
  | some page =>
    simp only
    cases hd : page.dirtier with
    | none => exact ⟨rfl, .refl e⟩
    | some txn =>
      obtain ⟨hp, ⟨log, faults, he⟩, hdurable⟩ := logAndForce_cases e txn page
      simp only
      generalize e.logAndForce txn page = outcome at hp he hdurable ⊢
      obtain ⟨e₁, result⟩ := outcome
      change e₁ = _ at he
      subst he
      cases result with
      | error err => exact ⟨rfl, hp⟩
      | ok _ =>
        have hl := hdurable rfl
        simp only
        unfold writePage
        cases ht : e.catalog.table? page.id.table with
        | error err => exact ⟨rfl, hp⟩
        | ok table =>
          simp only
          have hc := Step.call { e with log := log, faults := faults } .write
          generalize hcall : call _ .write = called at hc ⊢
          obtain ⟨e₂, failed⟩ := called
          have he₂ := congrArg Prod.fst hcall.symm
          change e₂ = _ at he₂
          subst he₂
          cases failed with
          | true => exact ⟨rfl, hp.quiet (.one hc)⟩
          | false =>
            simp only
            unfold Disk.writePage
            by_cases hi : page.id.table ≠ table.id
            · rw [if_pos hi]
              exact ⟨rfl, hp.quiet (.one hc)⟩
            · have hw := Step.write (e := call { e with log := log, faults := faults } .write |>.1) hr hf hd hl ht
                (Decidable.not_not.mp hi)
              unfold Disk.writePage at hw
              rw [if_neg hi] at hw ⊢
              exact ⟨rfl, (hp.quiet (.one hc)).trans (.one hw)⟩

theorem path_writeBackAll (frames : List FrameId) (e : Engine)
    (h : ∀ f ∈ frames, ∃ id, e.pool.resident.find? id = some f) :
    Path e (writeAllEvents frames e) (writeBackAll frames e).1 := by
  induction frames generalizing e with
  | nil => exact .refl e
  | cons f rest ih =>
    obtain ⟨id, hr⟩ := h f List.mem_cons_self
    obtain ⟨hres, hp⟩ := path_writeBack hr
    unfold writeAllEvents writeBackAll
    generalize e.writeBack f = outcome at hres hp ⊢
    obtain ⟨e₁, result⟩ := outcome
    change e₁.pool.resident = _ at hres
    cases result with
    | error err => exact hp.trans (.refl e₁)
    | ok _ => exact hp.trans (ih e₁ (resident_rest h hres))

theorem path_flushPage (e : Engine) (id : PageId) :
    Path e ((e.pool.resident.find? id).elim [] e.writeEvents) (e.flushPage id).1 := by
  unfold flushPage
  cases hr : e.pool.resident.find? id with
  | none => exact .refl e
  | some f => exact (path_writeBack hr).2

theorem path_rowsOf (e : Engine) (txn : TxnId) (id : PageId) :
    Path e (e.getEvents txn id .readOnly) (e.rowsOf txn id).1 := by
  have hp := path_getPage e txn id .readOnly
  unfold rowsOf
  generalize e.getPage txn id .readOnly = outcome at hp ⊢
  obtain ⟨e₁, result⟩ := outcome
  cases result <;> exact hp

theorem path_fill (txn : TxnId) (table : TableId) (left : Nat) (e : Engine) (c : Cursor) :
    Path e (fillEvents txn table left e c) (fill txn table left e c).1 := by
  induction left generalizing e c with
  | zero => exact .refl e
  | succ left ih =>
    unfold fillEvents fill
    split
    · have hp := path_rowsOf e txn ⟨table, c.nextPage⟩
      generalize e.rowsOf txn ⟨table, c.nextPage⟩ = outcome at hp ⊢
      obtain ⟨e₁, result⟩ := outcome
      cases result with
      | error err => exact hp.trans (.refl e₁)
      | ok rows => exact hp.trans (ih e₁ _)
    · exact .refl e

theorem path_nextTuple (e : Engine) (s : Scan) :
    Path e (s.cursor.elim [] fun c => fillEvents s.txn s.table.id (c.pageCount - c.nextPage) e c)
      (e.nextTuple s).1 := by
  unfold nextTuple
  cases s.cursor with
  | none => exact .refl e
  | some c =>
    have hp := path_fill s.txn s.table.id (c.pageCount - c.nextPage) e c
    simp only [Option.elim_some]
    generalize fill s.txn s.table.id (c.pageCount - c.nextPage) e c = outcome at hp ⊢
    obtain ⟨e₁, c₁, result⟩ := outcome
    cases result with
    | error err => exact hp
    | ok _ =>
      simp only
      cases c₁.buffered <;> exact hp

theorem path_rowsAmong (txn : TxnId) (table : TableId) (left n : Nat) (e : Engine) :
    Path e (rowsEvents txn table left n e) (rowsAmong txn table left n e).1 := by
  induction left generalizing n e with
  | zero => exact .refl e
  | succ left ih =>
    have hp := path_rowsOf e txn ⟨table, n⟩
    unfold rowsEvents rowsAmong
    generalize e.rowsOf txn ⟨table, n⟩ = outcome at hp ⊢
    obtain ⟨e₁, result⟩ := outcome
    cases result with
    | error err => exact hp.trans (.refl e₁)
    | ok rows => exact hp.trans (ih (n + 1) e₁)

/-- Every action is a path of steps that leaves exactly the action's events. -/
theorem path_act (e : Engine) (a : Action) : Path e (e.events a) (e.act a) := by
  cases a with
  | ask r =>
    cases r with
    | get txn page access => exact path_getPage ..
    | insert txn table t => exact path_insertTuple ..
    | delete txn record => exact path_deleteTuple ..
    | commit txn sweep => exact path_complete e txn true sweep
    | abort txn sweep => exact path_complete e txn false sweep
    | flush page => exact path_flushPage ..
    | flushTxn txn sweep => exact path_writeBackAll _ e fun _ => resident_of_mem_dirtiedBy
    | flushAll sweep => exact path_writeBackAll _ e fun _ => resident_of_mem_residentFrames
    | discard page => exact .one (.discard e page)
    | release txn page => exact .one (.release e txn page)
  | next s => exact path_nextTuple e s
  | scan txn table =>
    simp only [events, act, scanAll]
    cases e.catalog.table? table with
    | error err => exact .refl e
    | ok t => exact path_rowsAmong ..

theorem path_acts (e : Engine) (as : List Action) : Path e (e.history as) (e.acts as) := by
  induction as generalizing e with
  | nil => exact .refl e
  | cons a as ih => exact (path_act e a).trans (ih (e.act a))

end Engine

end RowStore
