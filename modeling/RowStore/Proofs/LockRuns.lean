import RowStore.Lock.Waiting
import RowStore.Proofs.LockRelease

/-!
# Lock tables that can be reached

No call makes the table of a manager improper, whether its request is granted, waits or gives up, so in every table
that can be reached a page has readers or one writer and the two maps agree. There, letting go of
everything does what it says and touches nobody else.
-/

namespace RowStore

namespace LockManager

theorem table_acquireOrWait (m : LockManager) (r : LockRequest) :
    (m.acquireOrWait r).1.table = (m.table.request r.txn r.page r.mode).1 := by
  have hdecide : (m.acquire r.txn r.page r.mode).1.table = (m.table.request r.txn r.page r.mode).1 := rfl
  rw [← hdecide]
  unfold acquireOrWait
  split <;> simp only [*]

/-- An awakening leaves the table as it is, decides the request once, or decides it twice. -/
theorem table_wake (m : LockManager) (r : LockRequest) (late : Bool) :
    (m.wake r late).1.table = m.table ∨
    (m.wake r late).1.table = (m.table.request r.txn r.page r.mode).1 ∨
    (m.wake r late).1.table =
      ((m.table.request r.txn r.page r.mode).1.request r.txn r.page r.mode).1 := by
  unfold wake
  by_cases hw : r ∈ m.waiting
  · simp only [if_pos hw]
    by_cases hl : (r.limited && late) = true
    · have hdecide : (LockManager.acquire { m with waiting := m.waiting.erase r } r.txn r.page r.mode).1.table
          = (m.table.request r.txn r.page r.mode).1 := rfl
      simp only [if_pos hl]
      split
      · rename_i granted he
        rw [he] at hdecide
        rw [table_acquireOrWait, hdecide]
        exact Or.inr (Or.inr rfl)
      · rename_i refused he
        rw [he] at hdecide
        exact Or.inr (Or.inl hdecide)
    · simp only [if_neg hl]
      exact Or.inr (Or.inl (table_acquireOrWait _ r))
  · simp only [if_neg hw]
    exact Or.inl trivial

theorem proper_after {m : LockManager} (hm : m.table.Proper) (call : Call) : (m.after call).table.Proper := by
  cases call with
  | acquire txn page mode => exact hm.request txn page mode
  | acquireOrWait r =>
    show (m.acquireOrWait r).1.table.Proper
    rw [table_acquireOrWait]
    exact hm.request r.txn r.page r.mode
  | wake r late =>
    show (m.wake r late).1.table.Proper
    rcases table_wake m r late with he | he | he
    · rw [he]
      exact hm
    · rw [he]
      exact hm.request r.txn r.page r.mode
    · rw [he]
      exact (hm.request r.txn r.page r.mode).request r.txn r.page r.mode
  | release txn page => exact hm.release txn page
  | releaseAll txn => exact hm.releaseAll txn

theorem proper_run {m : LockManager} (hm : m.table.Proper) (calls : List Call) : (m.run calls).table.Proper := by
  induction calls generalizing m with
  | nil => exact hm
  | cons call rest ih => exact ih (proper_after hm call)

end LockManager

namespace LockTable

/-- The holders of a page in a proper table are readers, or one writer. -/
theorem Proper.readers_or_writer {t : LockTable} (ht : t.Proper) (page : PageId) :
    (∀ h ∈ t.holdersOf page, h.mode = .shared) ∨ ∃ txn, t.holdersOf page = [⟨txn, .exclusive⟩] := by
  by_cases hw : ∃ h ∈ t.holdersOf page, h.mode = .exclusive
  · obtain ⟨⟨txn, mode⟩, hm, rfl⟩ := hw
    exact Or.inr ⟨txn, ht.alone page _ hm rfl⟩
  · refine Or.inl fun h hm => ?_
    cases hmode : h.mode with
    | shared => rfl
    | exclusive => exact absurd ⟨h, hm, hmode⟩ hw

/-- Pages are filed under a transaction exactly where it has a mode. -/
theorem Proper.mem_pagesOf {t : LockTable} (ht : t.Proper) {txn : TxnId} {page : PageId} :
    page ∈ t.pagesOf txn ↔ ∃ mode, t.modeOf? txn page = some mode := by
  rw [ht.filed, ← holds_iff, holds, Option.isSome_iff_exists]

/-- Nothing is filed any more under a transaction that has let go of everything. -/
theorem Proper.pagesOf_releaseAll_self {t : LockTable} (ht : t.Proper) (txn : TxnId) :
    (t.releaseAll txn).1.pagesOf txn = [] := by
  refine List.eq_nil_iff_forall_not_mem.mpr fun page hm => ?_
  obtain ⟨mode, hmode⟩ := (ht.releaseAll txn).mem_pagesOf.mp hm
  rw [ht.modeOf?_releaseAll, if_pos rfl] at hmode
  cases hmode

theorem Proper.pagesOf_releaseEach_of_ne {t : LockTable} (ht : t.Proper) {txn other : TxnId} (hne : txn ≠ other)
    (pages : List PageId) : (t.releaseEach txn pages).pagesOf other = t.pagesOf other := by
  induction pages generalizing t with
  | nil => rfl
  | cons page rest ih =>
    show ((t.release txn page).1.releaseEach txn rest).pagesOf other = _
    rw [ih (ht.release txn page), ht.pagesOf_release, if_neg hne]

/-- What is filed under the others stays filed when a transaction lets go of everything. -/
theorem Proper.pagesOf_releaseAll_of_ne {t : LockTable} (ht : t.Proper) {txn other : TxnId} (hne : txn ≠ other) :
    (t.releaseAll txn).1.pagesOf other = t.pagesOf other :=
  ht.pagesOf_releaseEach_of_ne hne _

theorem holdersOf_eq {t : LockTable} {page : PageId} {holders : List Holder}
    (h : t.holders.find? page = some holders) : t.holdersOf page = holders := by
  unfold holdersOf
  rw [h]
  rfl

theorem pagesOf_eq {t : LockTable} {txn : TxnId} {pages : List PageId} (h : t.held.find? txn = some pages) :
    t.pagesOf txn = pages := by
  unfold pagesOf
  rw [h]
  rfl

theorem Proper.find?_held_of_nil {t : LockTable} (ht : t.Proper) {txn : TxnId} (h : t.pagesOf txn = []) :
    t.held.find? txn = none := by
  cases hf : t.held.find? txn with
  | none => rfl
  | some pages => exact absurd ((pagesOf_eq hf).symm.trans h) (ht.held_ne_nil txn pages hf)

end LockTable

namespace LockManager

/-- In every state that a manager can reach, a page that has an entry has at least one holder, no transaction
twice, and only readers or a single writer; the pages filed under a transaction are exactly those that name it as a
holder, none twice, and no empty entry is kept. A transaction that lets go of everything is told exactly the pages it
held, holds nothing afterwards, and leaves the modes and the pages of all others as they were. -/
theorem table_exact (calls : List Call) :
    let m := empty.run calls
    (∀ page holders, m.table.holders.find? page = some holders →
      holders ≠ [] ∧ (holders.map Holder.txn).Nodup ∧
        ((∀ h ∈ holders, h.mode = .shared) ∨ ∃ txn, holders = [⟨txn, .exclusive⟩])) ∧
    (∀ txn page, page ∈ m.table.pagesOf txn ↔ ∃ h ∈ m.table.holdersOf page, h.txn = txn) ∧
    (∀ txn pages, m.table.held.find? txn = some pages → pages ≠ [] ∧ pages.Nodup) ∧
    ∀ txn,
      (∀ page, page ∈ (m.releaseAll txn).2 ↔ ∃ mode, m.table.modeOf? txn page = some mode) ∧
      (m.releaseAll txn).2.Nodup ∧
      (∀ page, (m.releaseAll txn).1.table.modeOf? txn page = none) ∧
      (m.releaseAll txn).1.table.held.find? txn = none ∧
      ∀ other, other ≠ txn →
        (m.releaseAll txn).1.table.pagesOf other = m.table.pagesOf other ∧
        ∀ page, (m.releaseAll txn).1.table.modeOf? other page = m.table.modeOf? other page := by
  intro m
  have hm : m.table.Proper := proper_run LockTable.proper_empty calls
  refine ⟨fun page holders hp => ?_, hm.filed, fun txn pages hp => ?_, fun txn => ⟨fun page => ?_, ?_, ?_, ?_, ?_⟩⟩
  · have hl : m.table.holdersOf page = holders := LockTable.holdersOf_eq hp
    refine ⟨hm.holders_ne_nil page holders hp, hl ▸ hm.once page, ?_⟩
    rw [← hl]
    exact hm.readers_or_writer page
  · have hl : m.table.pagesOf txn = pages := LockTable.pagesOf_eq hp
    exact ⟨hm.held_ne_nil txn pages hp, hl ▸ hm.filed_once txn⟩
  · exact hm.mem_pagesOf
  · exact hm.filed_once txn
  · intro page
    show (m.table.releaseAll txn).1.modeOf? txn page = none
    rw [hm.modeOf?_releaseAll, if_pos rfl]
  · exact (hm.releaseAll txn).find?_held_of_nil (hm.pagesOf_releaseAll_self txn)
  · intro other hne
    refine ⟨hm.pagesOf_releaseAll_of_ne hne.symm, fun page => ?_⟩
    show (m.table.releaseAll txn).1.modeOf? other page = _
    rw [hm.modeOf?_releaseAll, if_neg hne.symm]

end LockManager

end RowStore
