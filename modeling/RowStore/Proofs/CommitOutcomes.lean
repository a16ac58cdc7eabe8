import RowStore.Proofs.FailedCommits
import RowStore.Proofs.LockRuns
import RowStore.Proofs.PoolUses

/-!
# What a commit does to the store

A commit goes over the frames that its transaction has marked, and at each it appends a record to the log, forces the
log and makes the contents the baseline. So a commit is known from the calls of the log: as long as these do not fail, the
frames so far have new baselines behind durable records, and the first that fails ends the pass there. The two
main results say everything that changes between the states before and after a commit, when it succeeds and when it
fails, in every state that moves lead to from an empty pool without locks.
-/

namespace RowStore

def Page.updateBy (page : Page) (txn : TxnId) : UpdateRecord := ⟨txn, page.id, page.beforeImage, page.encode⟩

def Pool.rebase (p : Pool) (frames : List FrameId) : Pool :=
  { p with frames := p.frames.mapIdx fun f page => if f ∈ frames then page.setBeforeImage else page }

theorem Pool.page?_rebase (p : Pool) (frames : List FrameId) (f : FrameId) :
    (p.rebase frames).page? f = if f ∈ frames then (p.page? f).map Page.setBeforeImage else p.page? f := by
  unfold rebase page?
  rw [Array.getElem?_mapIdx]
  split
  · rfl
  · cases p.frames[f]? <;> rfl

theorem Pool.rebase_nil (p : Pool) : p.rebase [] = p := by
  unfold rebase
  congr 1
  refine Array.ext_getElem? fun f => ?_
  rw [Array.getElem?_mapIdx]
  cases p.frames[f]? <;> rfl

theorem Pool.rebase_cons {p : Pool} {f : FrameId} {rest : List FrameId} {page : Page} (hf : p.page? f = some page)
    (hd : f ∉ rest) : p.rebase (f :: rest) = (p.setPage f page.setBeforeImage).rebase rest := by
  unfold rebase setPage
  congr 1
  refine Array.ext_getElem? fun g => ?_
  have hg := Pool.page?_setPage hf page.setBeforeImage g
  unfold Pool.page? setPage at hg
  rw [Array.getElem?_mapIdx, Array.getElem?_mapIdx, hg]
  by_cases hfg : f = g
  · subst hfg
    rw [if_pos rfl, show p.frames[f]? = some page from hf]
    simp only [Option.map_some, List.mem_cons, true_or, if_true, if_neg hd]
  · rw [if_neg hfg]
    simp only [List.mem_cons, Ne.symm hfg, false_or]

/-- A log with records that were forced one by one. -/
def Log.forceEach (log : Log) (records : List UpdateRecord) : Log :=
  records.foldl (fun log r => (log.append r).force) log

theorem Log.records_forceEach (log : Log) (records : List UpdateRecord) :
    (log.forceEach records).records = log.records ++ records := by
  induction records generalizing log with
  | nil => exact (List.append_nil _).symm
  | cons r rest ih =>
    show (((log.append r).force).forceEach rest).records = _
    rw [ih]
    exact (List.append_assoc log.records [r] rest)

theorem Log.durable_forceEach (log : Log) {records : List UpdateRecord} (h : records ≠ []) :
    (log.forceEach records).durable = (log.forceEach records).records.length := by
  induction records generalizing log with
  | nil => exact absurd rfl h
  | cons r rest ih =>
    show (((log.append r).force).forceEach rest).durable = (((log.append r).force).forceEach rest).records.length
    cases rest with
    | nil => rfl
    | cons r' rest => exact ih _ (List.cons_ne_nil _ _)

namespace Engine

variable {e : Engine} {txn : TxnId}

/-! ## Passes of commits -/

/-- The next `n` appends to the log and the force after each do not fail, if there is no other call in between. -/
def LogHolds (e : Engine) (n : Nat) : Prop :=
  ∀ i < n, e.faults.fails .logWrite (e.faults.next + 2 * i) = false ∧
    e.faults.fails .force (e.faults.next + 2 * i + 1) = false

def updatesOf (e : Engine) (txn : TxnId) (frames : List FrameId) : List UpdateRecord :=
  (frames.filterMap e.page?).map (Page.updateBy · txn)

/-- The store after a commit has got through some frames: each has a new baseline behind a durable record, and two calls
of the log were made for it. -/
def rebased (e : Engine) (txn : TxnId) (frames : List FrameId) : Engine :=
  { e with
    pool := e.pool.rebase frames
    log := e.log.forceEach (e.updatesOf txn frames)
    faults := { e.faults with next := e.faults.next + 2 * frames.length } }

theorem updatesOf_cons {f : FrameId} {page : Page} (hf : e.page? f = some page) (txn : TxnId) (rest : List FrameId) :
    e.updatesOf txn (f :: rest) = page.updateBy txn :: e.updatesOf txn rest := by
  unfold updatesOf
  rw [List.filterMap_cons_some hf, List.map_cons]

/-- Logging a page and forcing the log, from the two calls that are made. -/
theorem logAndForce_eq (e : Engine) (txn : TxnId) (page : Page) :
    e.logAndForce txn page =
      if e.faults.fails .logWrite e.faults.next then
        ({ e with faults := { e.faults with next := e.faults.next + 1 } }, .error (failure .logWrite))
      else if e.faults.fails .force (e.faults.next + 1) then
        ({ e with log := e.log.append (page.updateBy txn), faults := { e.faults with next := e.faults.next + 2 } },
          .error (failure .force))
      else
        ({ e with log := (e.log.append (page.updateBy txn)).force,
                  faults := { e.faults with next := e.faults.next + 2 } }, .ok ()) := by
  unfold logAndForce logPage forceLog Engine.call
  cases e.faults.fails .logWrite e.faults.next with
  | true => rfl
  | false =>
    simp only [Bool.false_eq_true, if_false]
    cases e.faults.fails .force (e.faults.next + 1) <;> rfl

/-- What a commit does to one page, from the two calls of the log that it makes. -/
theorem commitPage_eq {f : FrameId} {page : Page} (hf : e.page? f = some page) (txn : TxnId) :
    e.commitPage txn f =
      if e.faults.fails .logWrite e.faults.next then
        ({ e with faults := { e.faults with next := e.faults.next + 1 } }, .error (failure .logWrite))
      else if e.faults.fails .force (e.faults.next + 1) then
        ({ e with log := e.log.append (page.updateBy txn), faults := { e.faults with next := e.faults.next + 2 } },
          .error (failure .force))
      else (e.rebased txn [f], .ok ()) := by
  have hone : e.pool.rebase [f] = e.pool.setPage f page.setBeforeImage := by
    rw [Pool.rebase_cons hf List.not_mem_nil, Pool.rebase_nil]
  have hupdates : e.updatesOf txn [f] = [page.updateBy txn] := updatesOf_cons hf txn []
  unfold commitPage rebased
  rw [hf, hone, hupdates]
  simp only [logAndForce_eq]
  cases e.faults.fails .logWrite e.faults.next with
  | true => rfl
  | false =>
    simp only [Bool.false_eq_true, if_false]
    cases e.faults.fails .force (e.faults.next + 1) <;> rfl

theorem rebased_cons {f : FrameId} {rest : List FrameId} (hf : (e.page? f).isSome) (hd : f ∉ rest) :
    e.rebased txn (f :: rest) = (e.rebased txn [f]).rebased txn rest := by
  obtain ⟨page, hpage⟩ := Option.isSome_iff_exists.mp hf
  have hone : (e.rebased txn [f]).pool = e.pool.setPage f page.setBeforeImage := by
    show e.pool.rebase [f] = _
    rw [Pool.rebase_cons hpage List.not_mem_nil, Pool.rebase_nil]
  have hrest : (e.rebased txn [f]).updatesOf txn rest = e.updatesOf txn rest := by
    unfold updatesOf
    congr 1
    refine List.filterMap_congr fun g hg => ?_
    show (e.pool.rebase [f]).page? g = e.pool.page? g
    have hne : g ∉ [f] := fun hm => hd (by rwa [← List.mem_singleton.mp hm])
    rw [Pool.page?_rebase, if_neg hne]
  have hpool : (e.rebased txn (f :: rest)).pool = ((e.rebased txn [f]).rebased txn rest).pool := by
    show e.pool.rebase (f :: rest) = (e.rebased txn [f]).pool.rebase rest
    rw [hone, Pool.rebase_cons hpage hd]
  have hlog : (e.rebased txn (f :: rest)).log = ((e.rebased txn [f]).rebased txn rest).log := by
    show e.log.forceEach (e.updatesOf txn (f :: rest)) =
      (e.log.forceEach (e.updatesOf txn [f])).forceEach ((e.rebased txn [f]).updatesOf txn rest)
    rw [hrest, updatesOf_cons hpage, updatesOf_cons hpage]
    rfl
  have hnext : e.faults.next + 2 * (rest.length + 1) = e.faults.next + 2 * 1 + 2 * rest.length := by omega
  unfold rebased at hpool hlog ⊢
  simp only [List.length_cons, List.length_nil] at hpool hlog ⊢
  rw [hpool, hlog, hnext]

theorem LogHolds.tail {n : Nat} {f : FrameId} (h : e.LogHolds (n + 1)) : (e.rebased txn [f]).LogHolds n := by
  intro i hi
  have hnext := h (i + 1) (by omega)
  rw [show e.faults.next + 2 * (i + 1) = e.faults.next + 2 * 1 + 2 * i by omega] at hnext
  exact hnext

/-- As long as the log does not fail a pass gets through its frames and goes on with the rest. -/
theorem commitPages_append {frames : List FrameId} (hd : frames.Nodup) (hf : ∀ f ∈ frames, (e.page? f).isSome)
    (hlog : e.LogHolds frames.length) (txn : TxnId) (rest : List FrameId) :
    commitPages txn (frames ++ rest) e = commitPages txn rest (e.rebased txn frames) := by
  induction frames generalizing e with
  | nil =>
    have hnone : e.rebased txn [] = e := by
      unfold rebased
      rw [Pool.rebase_nil]
      rfl
    rw [hnone]
    rfl
  | cons f frames ih =>
    obtain ⟨hnot, hd⟩ := List.nodup_cons.mp hd
    have hsome := hf f List.mem_cons_self
    obtain ⟨page, hpage⟩ := Option.isSome_iff_exists.mp hsome
    obtain ⟨hwrite, hforce⟩ := hlog 0 (Nat.succ_pos _)
    rw [Nat.mul_zero, Nat.add_zero] at hwrite hforce
    have hone : e.commitPage txn f = (e.rebased txn [f], .ok ()) := by
      rw [commitPage_eq hpage, hwrite, hforce]
      rfl
    have hpages : ∀ g ∈ frames, ((e.rebased txn [f]).page? g).isSome := by
      intro g hg
      show ((e.pool.rebase [f]).page? g).isSome
      have hg := hf g (List.mem_cons_of_mem f hg)
      rw [Pool.page?_rebase]
      split
      · rwa [Option.isSome_map]
      · exact hg
    rw [List.cons_append, commitPages_cons, hone, rebased_cons hsome hnot]
    exact ih hd hpages hlog.tail

/-- If the log fails at one of the next calls there is a first at which it does. -/
theorem exists_first_failure {n : Nat} (h : ¬ e.LogHolds n) :
    ∃ m < n, e.LogHolds m ∧ (e.faults.fails .logWrite (e.faults.next + 2 * m) = true ∨
      e.faults.fails .force (e.faults.next + 2 * m + 1) = true) := by
  induction n with
  | zero => exact absurd (fun i hi => absurd hi (Nat.not_lt_zero i)) h
  | succ n ih =>
    by_cases hn : e.LogHolds n
    · refine ⟨n, Nat.lt_succ_self n, hn, ?_⟩
      by_contra hnone
      obtain ⟨hwrite, hforce⟩ := not_or.mp hnone
      refine h fun i hi => ?_
      rcases Nat.lt_succ_iff_lt_or_eq.mp hi with hlt | rfl
      · exact hn i hlt
      · exact ⟨Bool.eq_false_iff.mpr hwrite, Bool.eq_false_iff.mpr hforce⟩
    · obtain ⟨m, hm, hrest⟩ := ih hn
      exact ⟨m, Nat.lt_succ_of_lt hm, hrest⟩

/-- What a commit of pages leaves when a call of the log fails: the pages before the one where it fails have new
baselines behind durable records, and of that page there is a record if it was the force that failed. -/
theorem commitPages_stops {frames : List FrameId} (hd : frames.Nodup) (hf : ∀ f ∈ frames, (e.page? f).isSome)
    (hlog : ¬ e.LogHolds frames.length) (txn : TxnId) :
    ∃ done f rest page n, frames = done ++ f :: rest ∧ e.page? f = some page ∧
      (commitPages txn frames e = ({ e.rebased txn done with faults := { e.faults with next := n } },
          .error (failure .logWrite)) ∨
        commitPages txn frames e = ({ e.rebased txn done with
            log := (e.rebased txn done).log.append (page.updateBy txn), faults := { e.faults with next := n } },
          .error (failure .force))) := by
  obtain ⟨m, hm, hholds, hfails⟩ := exists_first_failure hlog
  have hsplit : frames = frames.take m ++ frames[m] :: frames.drop (m + 1) := by
    rw [← List.drop_eq_getElem_cons, List.take_append_drop]
  have hlength : (frames.take m).length = m := List.length_take_of_le (Nat.le_of_lt hm)
  obtain ⟨page, hpage⟩ := Option.isSome_iff_exists.mp (hf frames[m] (List.getElem_mem hm))
  have hnot : frames[m] ∉ frames.take m := by
    rw [hsplit] at hd
    exact fun hmem => List.disjoint_of_nodup_append hd hmem List.mem_cons_self
  have hkept : (e.rebased txn (frames.take m)).page? frames[m] = some page := by
    show (e.pool.rebase (frames.take m)).page? frames[m] = some page
    rw [Pool.page?_rebase, if_neg hnot]
    exact hpage
  have hstart : commitPages txn frames e =
      commitPages txn (frames[m] :: frames.drop (m + 1)) (e.rebased txn (frames.take m)) := by
    conv_lhs => rw [hsplit]
    exact commitPages_append (hd.sublist (List.take_sublist m frames))
      (fun f hmem => hf f (List.mem_of_mem_take hmem)) (by rwa [hlength]) txn _
  have hnext : (e.rebased txn (frames.take m)).faults.next = e.faults.next + 2 * m := by
    show e.faults.next + 2 * (frames.take m).length = _
    rw [hlength]
  have hcalls : (e.rebased txn (frames.take m)).faults.fails = e.faults.fails := rfl
  refine ⟨frames.take m, frames[m], frames.drop (m + 1), page, ?_⟩
  rw [hstart, commitPages_cons, commitPage_eq hkept, hnext, hcalls]
  by_cases hwrite : e.faults.fails .logWrite (e.faults.next + 2 * m) = true
  · rw [if_pos hwrite]
    exact ⟨_, hsplit, hpage, .inl rfl⟩
  · rw [if_neg hwrite, if_pos (hfails.resolve_left hwrite)]
    exact ⟨_, hsplit, hpage, .inr rfl⟩

/-! ## The states that can be reached -/

/-- The states that moves lead to from an empty pool without locks that looks `k` accesses back, with what its replacer
was told on the way. What lies outside the engine may be anything at first and change at any time, except for the locks,
which only the engine grants. -/
inductive ReachedBy (k : Nat) : List Replacer.Use → Engine → Prop
  | start {e : Engine} {capacity : Nat} (hpool : e.pool = Pool.new capacity k) (hlocks : e.locks = LockTable.empty) :
      ReachedBy k [] e
  | move {uses : List Replacer.Use} {e : Engine} (h : ReachedBy k uses e) (m : Move)
      (hm : ∀ other, m = .surroundings other → other.locks = e.locks) : ReachedBy k (uses ++ e.uses m) (e.move m)

def Reached (e : Engine) : Prop := ∃ k uses, e.ReachedBy k uses

theorem ReachedBy.acts {k : Nat} {uses : List Replacer.Use} (h : e.ReachedBy k uses) (as : List Action) :
    (e.acts as).ReachedBy k (uses ++ e.usesOf (as.map .act)) := by
  induction as generalizing e uses with
  | nil => rwa [List.map_nil, usesOf, List.append_nil]
  | cons a rest ih =>
    rw [List.map_cons, usesOf, ← List.append_assoc]
    exact ih (h.move (.act a) nofun)

theorem Reached.start {capacity k : Nat} (hpool : e.pool = Pool.new capacity k) (hlocks : e.locks = LockTable.empty) :
    e.Reached := ⟨k, [], .start hpool hlocks⟩

theorem Reached.acts (h : e.Reached) (as : List Action) : (e.acts as).Reached := by
  obtain ⟨k, uses, hby⟩ := h
  exact ⟨k, _, hby.acts as⟩

theorem proper_move (hs : e.pool.Sane) (hp : e.locks.Proper) {m : Move}
    (hm : ∀ other, m = .surroundings other → other.locks = e.locks) : (e.move m).locks.Proper := by
  have hmoved := moved_move e m
  generalize e.move m = e' at hmoved ⊢
  cases hmoved with
  | along hpath =>
    rw [(hpath.locks hs).2]
    exact hp.foldl_after _
  | changed | writing => exact hp
  | surroundings other =>
    show other.locks.Proper
    rw [hm other rfl]
    exact hp

theorem Reached.sound (h : e.Reached) : e.pool.Sane ∧ e.locks.Proper := by
  obtain ⟨_, _, hby⟩ := h
  induction hby with
  | start hpool hlocks =>
    rw [hpool, hlocks]
    exact ⟨Pool.sane_new _ _, LockTable.proper_empty⟩
  | move _ m hm ih => exact ⟨(sane_move ih.1 m).1, proper_move ih.1 ih.2 hm⟩

/-! ## Commits -/

/-- A transaction has ended between two states: it has no lock any more, everyone else has the locks that they had, and
what lies in the files, which pages are resident and in which order they would be given up are as before. -/
structure Ended (e : Engine) (txn : TxnId) (e' : Engine) : Prop where
  pageSize : e'.pageSize = e.pageSize
  disk : e'.disk = e.disk
  catalog : e'.catalog = e.catalog
  capacity : e'.pool.capacity = e.pool.capacity
  resident : e'.pool.resident = e.pool.resident
  replacer : e'.pool.replacer = e.pool.replacer
  writing : e'.pool.writing = e.pool.writing
  unlocked : ∀ id, e'.locks.modeOf? txn id = none
  unfiled : e'.locks.pagesOf txn = []
  holders : ∀ id, e'.locks.holdersOf id = (e.locks.holdersOf id).filter fun holder => holder.txn ≠ txn
  modes : ∀ other id, other ≠ txn → e'.locks.modeOf? other id = e.locks.modeOf? other id
  filed : ∀ other, other ≠ txn → e'.locks.pagesOf other = e.locks.pagesOf other

/-- A commit that got everything done. Each page in memory that the transaction had marked is still there and marked,
with the contents that it had, which are its baseline now; the log has got one record of each, and no other record. -/
structure Committed (e : Engine) (txn : TxnId) (e' : Engine) : Prop extends Ended e txn e' where
  logged : ∃ pages : List Page, (pages.map Page.id).Nodup ∧
    (∀ page, page ∈ pages ↔ e.copy? page.id = some page ∧ page.dirtier = some txn) ∧
    e'.log.records = e.log.records ++ pages.map (fun page => ⟨txn, page.id, page.beforeImage, page.encode⟩) ∧
    (pages ≠ [] → e'.log.durable = e'.log.records.length)
  based : ∀ id page, e.copy? id = some page → page.dirtier = some txn →
    e'.copy? id = some { page with beforeImage := page.encode }
  kept : ∀ f, f ∉ e.pool.dirtiedBy txn → e'.page? f = e.page? f

/-- A commit that got through the pages in the frames `done` and stopped at the page in frame `f`. -/
structure StoppedAt (e : Engine) (txn : TxnId) (done : List FrameId) (f : FrameId) (err : StorageError) (e' : Engine) :
    Prop extends Ended e txn e' where
  cause : err = failure .logWrite ∨ err = failure .force
  logged : e'.log.records = e.log.records ++ e.updatesOf txn (if err = failure .force then done ++ [f] else done)
  durable : ∀ g ∈ done, ∀ page, e.page? g = some page →
    ⟨txn, page.id, page.beforeImage, page.encode⟩ ∈ e'.logged
  based : ∀ g ∈ done, ∀ page, e.page? g = some page → e'.page? g = some { page with beforeImage := page.encode }
  kept : ∀ g, g ∉ done → e'.page? g = e.page? g

/-- What the end of a transaction leaves alone, if its pass over the pages changed only frames, the log and the count of
outside calls. -/
theorem ended_of_pass (hp : e.locks.Proper) (txn : TxnId) (frames : Array Page) (log : Log) (faults : Faults) :
    Ended e txn { e with
      pool := { e.pool with frames := frames }
      log := log
      faults := faults
      locks := (e.locks.releaseAll txn).1 } where
  pageSize := rfl
  disk := rfl
  catalog := rfl
  capacity := rfl
  resident := rfl
  replacer := rfl
  writing := rfl
  unlocked id := by
    show (e.locks.releaseAll txn).1.modeOf? txn id = none
    rw [hp.modeOf?_releaseAll, if_pos rfl]
  unfiled := hp.pagesOf_releaseAll_self txn
  holders := hp.holdersOf_releaseAll txn
  modes other id hne := by
    show (e.locks.releaseAll txn).1.modeOf? other id = _
    rw [hp.modeOf?_releaseAll, if_neg hne.symm]
  filed other hne := hp.pagesOf_releaseAll_of_ne hne.symm

theorem frames_of_commit (hs : e.pool.Sane) (txn : TxnId) (sweep : Sweep) :
    (sweep.order (e.pool.dirtiedBy txn)).Nodup ∧ ∀ f ∈ sweep.order (e.pool.dirtiedBy txn), (e.page? f).isSome := by
  refine ⟨(sweep.perm _).nodup_iff.mpr (hs.nodup_residentFrames.filter _), fun f hf => ?_⟩
  obtain ⟨id, hid⟩ := resident_of_mem_dirtiedBy hf
  obtain ⟨page, hpage, _⟩ := hs.keyed id f hid
  exact Option.isSome_iff_exists.mpr ⟨page, hpage⟩

theorem mem_pages_of_commit (hs : e.pool.Sane) (txn : TxnId) (sweep : Sweep) (page : Page) :
    page ∈ (sweep.order (e.pool.dirtiedBy txn)).filterMap e.page? ↔
      e.copy? page.id = some page ∧ page.dirtier = some txn := by
  rw [List.mem_filterMap]
  constructor
  · rintro ⟨f, hf, hpage⟩
    obtain ⟨id, hid⟩ := resident_of_mem_dirtiedBy hf
    have hcopy := Pool.copy?_of_resident hid hpage
    obtain ⟨copy, hcur, hmark⟩ := Option.bind_eq_some_iff.mp ((mem_dirtied_iff e txn sweep id).mp ⟨f, hf, hid⟩)
    cases hcopy.symm.trans hcur
    exact ⟨by rwa [hs.id_of_copy? hcopy], hmark⟩
  · rintro ⟨hcopy, hmark⟩
    obtain ⟨f, hf, hid⟩ := (mem_dirtied_iff e txn sweep page.id).mpr (Option.bind_eq_some_iff.mpr ⟨page, hcopy, hmark⟩)
    refine ⟨f, hf, ?_⟩
    obtain ⟨g, hg, hpage⟩ := Pool.copy?_eq_some.mp hcopy
    cases hid.symm.trans hg
    exact hpage

theorem nodup_pages (hs : e.pool.Sane) {frames : List FrameId} (hd : frames.Nodup)
    (hr : ∀ f ∈ frames, ∃ id, e.pool.resident.find? id = some f) : ((frames.filterMap e.page?).map Page.id).Nodup := by
  rw [List.Nodup, List.pairwise_map, List.pairwise_filterMap]
  refine hd.imp_of_mem fun {f g} hf hg hne page hpage page' hpage' hid => hne ?_
  obtain ⟨_, hf⟩ := hr f hf
  obtain ⟨_, hg⟩ := hr g hg
  have hpf := hs.find?_of_page? hf hpage
  rw [hid, hs.find?_of_page? hg hpage'] at hpf
  exact (Option.some.inj hpf).symm

theorem nodup_pages_of_commit (hs : e.pool.Sane) (txn : TxnId) (sweep : Sweep) :
    (((sweep.order (e.pool.dirtiedBy txn)).filterMap e.page?).map Page.id).Nodup :=
  nodup_pages hs (frames_of_commit hs txn sweep).1 fun _ => resident_of_mem_dirtiedBy

/-- A commit during which the log does not fail succeeds, whatever the order of its pass, and changes exactly what
`Committed` says. -/
theorem commit_exact (h : e.Reached) (txn : TxnId) (sweep : Sweep)
    (hlog : e.LogHolds (e.pool.dirtiedBy txn).length) :
    (e.complete txn true sweep).2 = .ok () ∧ Committed e txn (e.complete txn true sweep).1 := by
  obtain ⟨hs, hp⟩ := h.sound
  obtain ⟨hd, hsome⟩ := frames_of_commit hs txn sweep
  have hpass := commitPages_append hd hsome (by rwa [(sweep.perm _).length_eq]) txn []
  rw [List.append_nil] at hpass
  have hstate : e.complete txn true sweep =
      ({ e.rebased txn (sweep.order (e.pool.dirtiedBy txn)) with locks := (e.locks.releaseAll txn).1 }, .ok ()) := by
    unfold complete
    simp only [if_true, hpass]
    rfl
  rw [hstate]
  refine ⟨rfl, ended_of_pass hp txn _ _ _, ⟨_, nodup_pages_of_commit hs txn sweep, mem_pages_of_commit hs txn sweep,
    Log.records_forceEach _ _, fun hpages => Log.durable_forceEach _ (mt List.map_eq_nil_iff.mp hpages)⟩, ?_, ?_⟩
  · intro id page hcopy hmark
    obtain ⟨f, hf, hid⟩ := (mem_dirtied_iff e txn sweep id).mpr (Option.bind_eq_some_iff.mpr ⟨page, hcopy, hmark⟩)
    obtain ⟨g, hg, hpage⟩ := Pool.copy?_eq_some.mp hcopy
    cases hid.symm.trans hg
    refine Pool.copy?_of_resident hid ?_
    show (e.pool.rebase _).page? f = _
    rw [Pool.page?_rebase, if_pos hf, hpage]
    rfl
  · intro f hf
    show (e.pool.rebase _).page? f = _
    rw [Pool.page?_rebase, if_neg fun hm => hf ((sweep.perm _).mem_iff.mp hm)]
    rfl

def twoPages (fails : Device → Nat → Bool) : Engine :=
  ((single 2 ⟨2, 2, none⟩ flagSchema).failing fails).acts
    [.ask (.insert ⟨1⟩ ⟨0⟩ (flagRow true)), .ask (.insert ⟨1⟩ ⟨0⟩ (flagRow false))]

theorem reached_twoPages (fails : Device → Nat → Bool) : (twoPages fails).Reached := .acts (.start rfl rfl) _

/-- The commit of both pages, the second one first. -/
theorem commit_exact_of_two_pages :
    ((twoPages fun _ _ => false).complete ⟨1⟩ true fromLast).2 = .ok () ∧
      Committed (twoPages fun _ _ => false) ⟨1⟩ ((twoPages fun _ _ => false).complete ⟨1⟩ true fromLast).1 :=
  commit_exact (reached_twoPages _) ⟨1⟩ fromLast fun _ _ => ⟨rfl, rfl⟩

/-- The records of the pages that a pass got through are durable. -/
theorem logged_rebased {frames : List FrameId} {r : UpdateRecord} (hr : r ∈ e.updatesOf txn frames) :
    r ∈ (e.rebased txn frames).logged := by
  have hdurable : (e.rebased txn frames).log.durable = (e.rebased txn frames).log.records.length :=
    Log.durable_forceEach e.log (List.ne_nil_of_mem hr)
  have hrecords : (e.rebased txn frames).log.records = e.log.records ++ e.updatesOf txn frames :=
    Log.records_forceEach e.log _
  unfold logged
  rw [hdurable, List.take_length, hrecords]
  exact List.mem_append_right _ hr

theorem stoppedAt_of_pass (hp : e.locks.Proper) {done : List FrameId} {f : FrameId} {err : StorageError} {log : Log}
    (faults : Faults) (hcause : err = failure .logWrite ∨ err = failure .force)
    (hlogged : log.records = e.log.records ++ e.updatesOf txn (if err = failure .force then done ++ [f] else done))
    (hdurable : ∀ r ∈ e.updatesOf txn done, r ∈ log.records.take log.durable) :
    StoppedAt e txn done f err { e with
      pool := e.pool.rebase done
      log := log
      faults := faults
      locks := (e.locks.releaseAll txn).1 } where
  toEnded := ended_of_pass hp txn _ log faults
  cause := hcause
  logged := hlogged
  durable g hg page hpage := hdurable _ (List.mem_map_of_mem (List.mem_filterMap.mpr ⟨g, hg, hpage⟩))
  based g hg page hpage := by
    show (e.pool.rebase done).page? g = _
    rw [Pool.page?_rebase, if_pos hg, show e.pool.page? g = some page from hpage]
    rfl
  kept g hg := by
    show (e.pool.rebase done).page? g = _
    rw [Pool.page?_rebase, if_neg hg]
    rfl

/-- A commit that fails has stopped at the first page at which the log fails: the pages before it have new baselines, and
it and all others have the baselines that they had. So none has a new one if there is only one page to commit. -/
theorem failed_commit_stops (h : e.Reached) (txn : TxnId) (sweep : Sweep) (err : StorageError)
    (herr : (e.complete txn true sweep).2 = .error err) :
    (∃ done f rest, sweep.order (e.pool.dirtiedBy txn) = done ++ f :: rest ∧ (done ++ f :: rest).Nodup ∧
      StoppedAt e txn done f err (e.complete txn true sweep).1) ∧
    ((e.pool.dirtiedBy txn).length ≤ 1 → ∀ f, (e.complete txn true sweep).1.page? f = e.page? f) := by
  obtain ⟨hs, hp⟩ := h.sound
  obtain ⟨hd, hsome⟩ := frames_of_commit hs txn sweep
  have hfails : ¬ e.LogHolds (sweep.order (e.pool.dirtiedBy txn)).length := by
    intro hholds
    rw [(sweep.perm _).length_eq] at hholds
    rw [(commit_exact h txn sweep hholds).1] at herr
    cases herr
  obtain ⟨done, f, rest, page, n, hsplit, hpage, hpass⟩ := commitPages_stops hd hsome hfails txn
  have hstopped : StoppedAt e txn done f err (e.complete txn true sweep).1 := by
    have hrecords : (e.rebased txn done).log.records = e.log.records ++ e.updatesOf txn done :=
      Log.records_forceEach e.log _
    unfold complete at herr ⊢
    rcases hpass with hpass | hpass
    · simp only [if_true, hpass] at herr ⊢
      cases herr
      exact stoppedAt_of_pass hp _ (.inl rfl) hrecords fun r hr => logged_rebased hr
    · simp only [if_true, hpass] at herr ⊢
      cases herr
      refine stoppedAt_of_pass hp _ (.inr rfl) ?_ fun r hr => (Step.log _ _).logged (logged_rebased hr)
      have hboth : e.updatesOf txn (done ++ [f]) = e.updatesOf txn done ++ [page.updateBy txn] := by
        unfold updatesOf
        rw [List.filterMap_append, List.map_append, List.filterMap_cons_some hpage]
        rfl
      rw [if_pos rfl, hboth, ← List.append_assoc, ← hrecords]
      rfl
  refine ⟨⟨done, f, rest, hsplit, hsplit ▸ hd, hstopped⟩, fun hone g => hstopped.kept g ?_⟩
  have hlength : done.length + (rest.length + 1) ≤ 1 := by
    rw [← (sweep.perm _).length_eq, hsplit, List.length_append] at hone
    exact hone
  rw [List.eq_nil_of_length_eq_zero (by omega : done.length = 0)]
  exact List.not_mem_nil

/-- With no append to the log from the seventh call on, the commit gets through the first page and stops at the second. -/
theorem failed_commit_stops_at_second_page :
    ((∃ done f rest, Sweep.asListed.order ((twoPages (logFailsFrom 6)).pool.dirtiedBy ⟨1⟩) = done ++ f :: rest ∧
        (done ++ f :: rest).Nodup ∧ StoppedAt (twoPages (logFailsFrom 6)) ⟨1⟩ done f (failure .logWrite)
          ((twoPages (logFailsFrom 6)).complete ⟨1⟩ true .asListed).1) ∧
      (((twoPages (logFailsFrom 6)).pool.dirtiedBy ⟨1⟩).length ≤ 1 → ∀ f,
        ((twoPages (logFailsFrom 6)).complete ⟨1⟩ true .asListed).1.page? f = (twoPages (logFailsFrom 6)).page? f)) :=
  failed_commit_stops (reached_twoPages _) ⟨1⟩ .asListed (failure .logWrite) rfl

/-- That commit has failed, and the first page has its contents for a baseline while the second has its old one. Where the
force fails, the record of a page whose baseline stays is in the log all the same. -/
theorem failed_commit_leaves_traces :
    (((twoPages (logFailsFrom 6)).complete ⟨1⟩ true .asListed).2 = .error (failure .logWrite) ∧
      ((twoPages (logFailsFrom 6)).copy? ⟨⟨0⟩, 0⟩).map Page.beforeImage = some [0, 0] ∧
      (((twoPages (logFailsFrom 6)).complete ⟨1⟩ true .asListed).1.copy? ⟨⟨0⟩, 0⟩).map Page.beforeImage = some [1, 1] ∧
      ((twoPages (logFailsFrom 6)).copy? ⟨⟨0⟩, 1⟩).map Page.encode = some [1, 0] ∧
      (((twoPages (logFailsFrom 6)).complete ⟨1⟩ true .asListed).1.copy? ⟨⟨0⟩, 1⟩).map Page.beforeImage =
        some [0, 0]) ∧
    ((twoPages fun device _ => device = .force).complete ⟨1⟩ true .asListed).2 = .error (failure .force) ∧
    ((twoPages fun device _ => device = .force).complete ⟨1⟩ true .asListed).1.log.records =
      [⟨⟨1⟩, ⟨⟨0⟩, 0⟩, [0, 0], [1, 1]⟩] := by
  refine ⟨⟨rfl, ?_, ?_, ?_, ?_⟩, rfl, ?_⟩ <;> decide +kernel

end Engine

end RowStore
