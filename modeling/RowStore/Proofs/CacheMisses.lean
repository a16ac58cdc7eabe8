import RowStore.Proofs.CommitOutcomes
import RowStore.Proofs.EvictionOrder

/-!
# Fetching a page that is not in memory

A page that is not in memory is read first, and only then is room made for it. So a read that fails leaves the pool as it
was. There is room as long as the pool is not at its capacity; then it is made by giving up a page that is clean and that
nobody is writing, the first to go by its accesses, and if there is no such page the fetch fails. That such a page is
found whenever there is one rests on the replacer tracking the resident pages and no others, and that it is the right one
on what the replacer was told in the run. Both are known in every state that moves lead to from an empty pool.
-/

namespace RowStore

namespace Pool

/-- A resident page that is clean and that nobody is writing. -/
def Free (p : Pool) (id : PageId) : Prop :=
  ∃ f page, p.resident.find? id = some f ∧ p.page? f = some page ∧ page.dirtier = none ∧ f ∉ p.writing

theorem evictable_iff_free {p : Pool} {id : PageId} : p.evictable id = true ↔ p.Free id := by
  constructor
  · exact evictable_eq_true
  · rintro ⟨f, page, hr, hp, hd, hw⟩
    exact evictable_of_clean hr hp hd hw

/-- A page was loaded into a new frame, and one page that was given up for it is gone, if any. The loaded page has one
access, and no other page has a new one. -/
structure Loaded (p : Pool) (page : Page) (gone : Option PageId) (p' : Pool) : Prop where
  capacity : p'.capacity = p.capacity
  writing : p'.writing = p.writing
  frames : p'.frames = p.frames.push page
  resident : ∀ q, p'.resident.find? q =
    if q = page.id then some p.frames.size else if gone = some q then none else p.resident.find? q
  accesses : ∀ q, p'.replacer.history.find? q =
    if q = page.id then some [p.replacer.clock] else if gone = some q then none else p.replacer.history.find? q

theorem loaded_touch {p q : Pool} {page : Page} {gone : Option PageId} (hk : 0 < p.replacer.k)
    (hnew : p.replacer.history.find? page.id = none) (hq : q = gone.elim p p.discard) :
    p.Loaded page gone ({ q with
      frames := p.frames.push page, resident := q.resident.insert page.id p.frames.size }.touch page.id) := by
  -- Giving up a page takes its entries away, and nothing else.
  have hgone : q.capacity = p.capacity ∧ q.writing = p.writing ∧ q.replacer.k = p.replacer.k ∧
      q.replacer.clock = p.replacer.clock ∧
      (∀ id, q.resident.find? id = if gone = some id then none else p.resident.find? id) ∧
      ∀ id, q.replacer.history.find? id = if gone = some id then none else p.replacer.history.find? id := by
    subst hq
    cases gone with
    | none => exact ⟨rfl, rfl, rfl, rfl, fun _ => rfl, fun _ => rfl⟩
    | some victim =>
      refine ⟨rfl, rfl, rfl, rfl, fun id => ?_, fun id => ?_⟩
      · show (p.resident.erase victim).find? id = _
        rw [Dict.find?_erase]
        simp only [Option.some.injEq]
      · show (p.replacer.history.erase victim).find? id = _
        rw [Dict.find?_erase]
        simp only [Option.some.injEq]
  obtain ⟨hcapacity, hwriting, hkq, hclock, hres, hhist⟩ := hgone
  have hfirst : Replacer.lastOf q.replacer.k ((q.replacer.history.find? page.id).getD [] ++ [q.replacer.clock]) =
      [p.replacer.clock] := by
    have hnone : q.replacer.history.find? page.id = none := by rw [hhist, hnew, ite_self]
    rw [hnone, hkq, hclock]
    show List.drop (1 - p.replacer.k) [p.replacer.clock] = _
    rw [Nat.sub_eq_zero_of_le hk, List.drop_zero]
  refine ⟨hcapacity, hwriting, rfl, fun id => ?_, fun id => ?_⟩
  · show (q.resident.insert page.id p.frames.size).find? id = _
    rw [Dict.find?_insert, hres]
    simp only [eq_comm]
  · show (q.replacer.history.insert page.id _).find? id = _
    rw [Dict.find?_insert, hfirst, hhist]
    simp only [eq_comm]

theorem load_below {p : Pool} {page : Page} (hk : 0 < p.replacer.k)
    (hnew : p.replacer.history.find? page.id = none) (hlt : p.resident.size < p.capacity) :
    ∃ p', p.load page = .ok (p', p.frames.size) ∧ p.Loaded page none p' := by
  have hroom : p.makeRoom = .ok p := by
    unfold makeRoom
    rw [if_pos hlt]
  refine ⟨_, ?_, loaded_touch hk hnew rfl⟩
  unfold load
  rw [hroom]
  rfl

theorem load_full {p : Pool} {page : Page} (hk : 0 < p.replacer.k)
    (hnew : p.replacer.history.find? page.id = none) (hle : p.capacity ≤ p.resident.size) :
    (p.replacer.victim? p.evictable = none ∧ p.load page = .error .bufferPoolFull) ∨
      ∃ victim p', p.replacer.victim? p.evictable = some victim ∧ p.load page = .ok (p', p.frames.size) ∧
        p.Loaded page (some victim) p' := by
  cases hv : p.replacer.victim? p.evictable with
  | none =>
    have hroom : p.makeRoom = .error .bufferPoolFull := by
      unfold makeRoom evict Replacer.evict
      rw [if_neg (Nat.not_lt_of_le hle), hv]
    refine .inl ⟨rfl, ?_⟩
    unfold load
    rw [hroom]
  | some victim =>
    have hroom : p.makeRoom = .ok (p.discard victim) := by
      unfold makeRoom evict Replacer.evict
      rw [if_neg (Nat.not_lt_of_le hle), hv]
      rfl
    refine .inr ⟨victim, _, rfl, ?_, loaded_touch hk hnew rfl⟩
    unfold load
    rw [hroom]
    rfl

theorem Sane.find?_history_of_absent {p : Pool} (h : p.Sane) {id : PageId} (hmiss : p.resident.find? id = none) :
    p.replacer.history.find? id = none := by
  have huntracked : id ∉ p.replacer.history.keys := by
    rw [h.tracked, Dict.mem_keys_iff, hmiss]
    exact Bool.false_ne_true
  rwa [Dict.mem_keys_iff, Bool.not_eq_true, Option.isSome_eq_false_iff, Option.isNone_iff_eq_none] at huntracked

/-- There is a page to give up if and only if a resident page is clean and nobody is writing it. -/
theorem Sane.victim?_eq_none_iff {p : Pool} (h : p.Sane) :
    p.replacer.victim? p.evictable = none ↔ ∀ id, ¬ p.Free id := by
  constructor
  · rintro hnone id hfree
    have hm : id ∈ p.replacer.history.keys := by
      obtain ⟨f, _, hr, _⟩ := hfree
      exact (h.tracked id).mpr (mem_keys_of_find? hr)
    have hsome := Replacer.isSome_victim? hm (evictable_iff_free.mpr hfree)
    rw [hnone] at hsome
    cases hsome
  · intro hall
    refine Option.eq_none_iff_forall_ne_some.mpr fun id hv => hall id ?_
    exact evictable_iff_free.mp (Replacer.victim?_eq_some hv).1

end Pool

namespace Engine

variable {e e' : Engine} {k : Nat} {uses : List Replacer.Use}

/-- The replacer of a pool that moves lead to is a new one after what it was told on the way. -/
theorem ReachedBy.replacer (h : e.ReachedBy k uses) : e.pool.replacer = (Replacer.new k).run uses := by
  induction h with
  | start hpool _ => rw [hpool]; rfl
  | @move uses e _ m _ ih =>
    have htold : (e.move m).pool.replacer = e.pool.replacer.run (e.uses m) := told_move e m
    rw [htold, ih, Replacer.run_append]

def AllHeld (e : Engine) : Prop :=
  ∀ id f page, e.pool.resident.find? id = some f → e.page? f = some page → page.dirtier ≠ none ∨ f ∈ e.pool.writing

theorem allHeld_iff : e.AllHeld ↔ ∀ id, ¬ e.pool.Free id := by
  constructor
  · rintro hall id ⟨f, page, hr, hp, hd, hw⟩
    exact (hall id f page hr hp).elim (· hd) hw
  · intro hnone id f page hr hp
    by_contra hnot
    obtain ⟨hd, hw⟩ := not_or.mp hnot
    exact hnone id ⟨f, page, hr, hp, not_not.mp hd, hw⟩

/-- A page is the one to be given up next, by all that the replacer was told since it was new, and by whatever else would
have left it as it is. Only pages count that are resident, clean and not being written. -/
structure NextOut (k : Nat) (uses : List Replacer.Use) (e : Engine) (victim : PageId) : Prop where
  free : e.pool.Free victim
  told : e.pool.replacer = (Replacer.new k).run uses
  first : ∀ k uses, e.pool.replacer = (Replacer.new k).run uses → ∀ evictable : PageId → Bool,
    (∀ id, evictable id = true ↔ e.pool.Free id) → ((Replacer.new k).trace uses).Victim (max k 1) evictable victim

/-- What fetching a page that is not in memory comes to. If it cannot be read that is the error, and the pool is as it was.
If there is room it is loaded beside the others. If there is none, it is loaded in the place of the next to be given up,
unless every resident page is held; then the pool is full, and as it was. -/
structure Missed (k : Nat) (uses : List Replacer.Use) (e : Engine) (id : PageId) (result : Except StorageError FrameId)
    (e' : Engine) : Prop where
  beside : ∃ faults traffic, e' =
    { e with pool := e'.pool, faults := faults, disk := ⟨e.disk.files, traffic⟩ }
  unread : ∀ err, e.readAt e.faults.next id = .error err → result = .error err ∧ e'.pool = e.pool
  below : ∀ page, e.readAt e.faults.next id = .ok page → e.pool.resident.size < e.pool.capacity →
    page.id = id ∧ result = .ok e.pool.frames.size ∧ e.pool.Loaded page none e'.pool
  full : ∀ page, e.readAt e.faults.next id = .ok page → e.pool.capacity ≤ e.pool.resident.size →
    (result = .error .bufferPoolFull ↔ e.AllHeld) ∧ (e.AllHeld → e'.pool = e.pool) ∧
    (¬ e.AllHeld → page.id = id ∧ result = .ok e.pool.frames.size ∧
      ∃ victim, e.NextOut k uses victim ∧ e.pool.Loaded page (some victim) e'.pool)

theorem nextOut_of_victim? (htold : e.pool.replacer = (Replacer.new k).run uses) {victim : PageId}
    (hv : e.pool.replacer.victim? e.pool.evictable = some victim) : e.NextOut k uses victim where
  free := Pool.evictable_iff_free.mp (Replacer.victim?_eq_some hv).1
  told := htold
  first k uses hreplacer evictable hfree := by
    obtain ⟨hkeeps, hk⟩ := Replacer.keeps_run k uses
    have hsame : evictable = e.pool.evictable :=
      funext fun id => Bool.eq_iff_iff.mpr ((hfree id).trans Pool.evictable_iff_free.symm)
    rw [hsame, ← hk, ← hkeeps.victim?_iff_victim (by omega), ← hreplacer]
    exact hv

theorem missed_fetch (hs : e.pool.Sane) (htold : e.pool.replacer = (Replacer.new k).run uses) {id : PageId}
    (hmiss : e.pool.resident.find? id = none) : Missed k uses e id (e.fetch id).2 (e.fetch id).1 := by
  obtain ⟨traffic, hread⟩ := e.readPage_eq id
  have hk : 0 < e.pool.replacer.k := by
    rw [htold, (Replacer.keeps_run k uses).2]
    omega
  have hnew := hs.find?_history_of_absent hmiss
  unfold fetch
  rw [hmiss]
  simp only [hread]
  cases hout : e.readAt e.faults.next id with
  | error err =>
    refine ⟨⟨_, _, rfl⟩, fun err' herr => ?_, fun page hpage => ?_, fun page hpage => ?_⟩
    · cases hout.symm.trans herr
      exact ⟨rfl, rfl⟩
    · cases hout.symm.trans hpage
    · cases hout.symm.trans hpage
  | ok page =>
    have hid := id_of_onFile (onFile_of_readAt hout)
    rw [← hid] at hnew
    simp only
    have hok : ∀ page', e.readAt e.faults.next id = .ok page' → page' = page := fun page' hpage' => by
      cases hout.symm.trans hpage'
      rfl
    rcases Nat.lt_or_ge e.pool.resident.size e.pool.capacity with hlt | hle
    · obtain ⟨pool, hload, hloaded⟩ := Pool.load_below hk hnew hlt
      rw [hload]
      refine ⟨⟨_, _, rfl⟩, fun err herr => ?_, fun page' hpage' _ => ?_, fun page' _ hle => absurd hlt (by omega)⟩
      · cases hout.symm.trans herr
      · cases hok page' hpage'
        exact ⟨hid, rfl, hloaded⟩
    · rcases Pool.load_full hk hnew hle with ⟨hnone, hload⟩ | ⟨victim, pool, hv, hload, hloaded⟩
      · have hheld : e.AllHeld := allHeld_iff.mpr (hs.victim?_eq_none_iff.mp hnone)
        rw [hload]
        refine ⟨⟨_, _, rfl⟩, fun err herr => ?_, fun page' _ hlt => absurd hle (by omega), fun page' _ _ =>
          ⟨⟨fun _ => hheld, fun _ => rfl⟩, fun _ => rfl, fun hnot => absurd hheld hnot⟩⟩
        cases hout.symm.trans herr
      · have hfree : ¬ e.AllHeld := fun hall => by
          rw [hs.victim?_eq_none_iff.mpr (allHeld_iff.mp hall)] at hv
          cases hv
        rw [hload]
        refine ⟨⟨_, _, rfl⟩, fun err herr => ?_, fun page' _ hlt => absurd hle (by omega), fun page' hpage' _ =>
          ⟨⟨nofun, fun hall => absurd hall hfree⟩, fun hall => absurd hall hfree, fun _ => ?_⟩⟩
        · cases hout.symm.trans herr
        · cases hok page' hpage'
          exact ⟨hid, rfl, victim, nextOut_of_victim? htold hv, hloaded⟩

/-- A fetch whose lock is refused changes nothing at all, and one of a page that is not in memory, under a lock that is
granted, comes to what `Missed` says, the granted lock apart. The page that gives way to another is the first to go by
the accesses of the whole run, those to pages that were found in memory included. -/
theorem getPage_miss_exact (h : e.ReachedBy k uses) (txn : TxnId) (id : PageId) (access : Access) :
    ((e.locks.request txn id access.lockMode).2 = false →
      e.getPage txn id access = (e, .error (.transactionAborted txn))) ∧
    ((e.locks.request txn id access.lockMode).2 = true → e.pool.resident.find? id = none →
      Missed k uses { e with locks := (e.locks.request txn id access.lockMode).1 } id (e.getPage txn id access).2
        (e.getPage txn id access).1) := by
  have hsane : e.pool.Sane := (Reached.sound ⟨k, uses, h⟩).1
  rw [getPage_eq]
  refine ⟨fun hdenied => ?_, fun hgranted hmiss => ?_⟩
  · rw [hdenied]
    rfl
  · rw [hgranted]
    exact missed_fetch (e := { e with locks := (e.locks.request txn id access.lockMode).1 }) hsane h.replacer hmiss

def fullPool : Engine :=
  (twoPages fun _ _ => false).acts [.ask (.flushAll .asListed), .ask (.insert ⟨1⟩ ⟨0⟩ (flagRow true))]

/-- The first page is loaded in the place of the second, which is the only clean one; nobody else gets the lock. The pages
were accessed when they came into memory, when they were handed back, and when an insert found them full. -/
theorem getPage_miss_exact_of_full_pool :
    ∃ uses, fullPool.ReachedBy 2 uses ∧
      (Replacer.new 2).trace uses =
        [.accessed ⟨⟨0⟩, 0⟩, .accessed ⟨⟨0⟩, 0⟩, .accessed ⟨⟨0⟩, 0⟩, .accessed ⟨⟨0⟩, 1⟩, .accessed ⟨⟨0⟩, 1⟩,
          .accessed ⟨⟨0⟩, 0⟩, .accessed ⟨⟨0⟩, 1⟩, .forgotten ⟨⟨0⟩, 0⟩, .accessed ⟨⟨0⟩, 2⟩, .accessed ⟨⟨0⟩, 2⟩] ∧
      Missed 2 uses { fullPool with locks := (fullPool.locks.request ⟨1⟩ ⟨⟨0⟩, 0⟩ .shared).1 } ⟨⟨0⟩, 0⟩ (.ok 3)
        (fullPool.getPage ⟨1⟩ ⟨⟨0⟩, 0⟩ .readOnly).1 ∧
      fullPool.pool.residentPages = [⟨⟨0⟩, 1⟩, ⟨⟨0⟩, 2⟩] ∧
      (fullPool.getPage ⟨1⟩ ⟨⟨0⟩, 0⟩ .readOnly).1.pool.residentPages = [⟨⟨0⟩, 2⟩, ⟨⟨0⟩, 0⟩] ∧
      fullPool.getPage ⟨2⟩ ⟨⟨0⟩, 0⟩ .readOnly = (fullPool, .error (.transactionAborted ⟨2⟩)) := by
  have hreached : fullPool.ReachedBy 2 _ := (ReachedBy.acts (.start rfl rfl) _).acts _
  have hmiss := getPage_miss_exact hreached
  exact ⟨_, hreached, by decide +kernel, (hmiss ⟨1⟩ ⟨⟨0⟩, 0⟩ .readOnly).2 (by decide +kernel) (by decide +kernel),
    by decide +kernel, by decide +kernel, (hmiss ⟨2⟩ ⟨⟨0⟩, 0⟩ .readOnly).1 (by decide +kernel)⟩

end Engine

end RowStore
