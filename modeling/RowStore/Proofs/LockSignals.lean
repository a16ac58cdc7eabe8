import RowStore.Proofs.LockAdmission

/-!
# No missed signal

A request that waits is decided again only when it wakes up, and a release signals to everybody who waits. That
is enough. No call weakens a lock that stays, so the lock that stands in the way of a request stands there until it is
released, and a call that releases a lock signals. Between signals a refused request stays refused, whatever else is
asked for, granted and raised, and whatever its own transaction lets go of.
-/

namespace RowStore

theorem LockMode.conflicts_of_covers {held stronger wanted : LockMode} (hcov : stronger.covers held = true)
    (h : held.conflicts wanted = true) : stronger.conflicts wanted = true := by
  revert hcov h
  cases held <;> cases stronger <;> cases wanted <;> decide

namespace LockTable

variable {t : LockTable} {other : TxnId} {page : PageId} {held : LockMode}

/-- The lock is there, no weaker than `held`. -/
def HeldAtLeast (t : LockTable) (txn : TxnId) (page : PageId) (held : LockMode) : Prop :=
  ∃ now, t.modeOf? txn page = some now ∧ now.covers held = true

theorem heldAtLeast_of_some (h : t.modeOf? other page = some held) : t.HeldAtLeast other page held :=
  ⟨held, h, by cases held <;> rfl⟩

theorem HeldAtLeast.request (h : t.HeldAtLeast other page held) (txn : TxnId) (q : PageId) (mode : LockMode) :
    (t.request txn q mode).1.HeldAtLeast other page held := by
  cases hg : (t.request txn q mode).2 with
  | false =>
    rw [request_refused hg]
    exact h
  | true =>
    obtain ⟨now, hnow, hcov⟩ := h
    unfold HeldAtLeast
    rw [modeOf?_request hg]
    by_cases hsame : txn = other ∧ q = page
    · obtain ⟨rfl, rfl⟩ := hsame
      refine ⟨_, if_pos ⟨rfl, rfl⟩, ?_⟩
      rw [hnow, LockMode.joined_some]
      have hstronger := (LockMode.stronger_covers now mode).1
      revert hcov hstronger
      cases now.stronger mode <;> cases now <;> cases held <;> decide
    · exact ⟨now, by rw [if_neg hsame, hnow], hcov⟩

end LockTable

namespace LockManager

variable {m : LockManager} {call : Call} {txn other : TxnId} {page : PageId} {mode held : LockMode}

def Call.asks : Call → Bool
  | .acquire _ _ _ => true
  | .acquireOrWait _ => true
  | .wake _ _ => true
  | .release _ _ => false
  | .releaseAll _ => false

/-- A call takes the page from a transaction other than `txn`. -/
def Frees (m : LockManager) (call : Call) (txn : TxnId) (page : PageId) : Prop :=
  ∃ other, other ≠ txn ∧ m.table.holds other page = true ∧ (m.after call).table.holds other page = false

def Refuses (m : LockManager) (r : LockRequest) : Prop := (m.acquire r.txn r.page r.mode).2 = false

theorem refuses_iff (hm : m.table.Proper) {r : LockRequest} :
    m.Refuses r ↔ m.table.Conflicting r.txn r.page r.mode := hm.refused_iff

theorem heldAtLeast_of_asks (ha : call.asks = true) (h : m.table.HeldAtLeast other page held) :
    (m.after call).table.HeldAtLeast other page held := by
  cases call with
  | acquire txn q wanted => exact h.request txn q wanted
  | acquireOrWait r =>
    show (m.acquireOrWait r).1.table.HeldAtLeast other page held
    rw [table_acquireOrWait]
    exact h.request r.txn r.page r.mode
  | wake r late =>
    show (m.wake r late).1.table.HeldAtLeast other page held
    rcases table_wake m r late with he | he | he
    · rw [he]
      exact h
    · rw [he]
      exact h.request r.txn r.page r.mode
    · rw [he]
      exact (h.request r.txn r.page r.mode).request r.txn r.page r.mode
  | release txn q => cases ha
  | releaseAll txn => cases ha

/-- A lock stays, no weaker than it was, or the call that takes it away signals. -/
theorem kept_or_signalled (hm : m.table.Proper) (h : m.table.modeOf? other page = some held) (call : Call) :
    (m.after call).table.HeldAtLeast other page held ∨
      (m.after call).table.modeOf? other page = none ∧ m.signals call = true := by
  cases call with
  | acquire txn q wanted => exact Or.inl (heldAtLeast_of_asks rfl (LockTable.heldAtLeast_of_some h))
  | acquireOrWait r => exact Or.inl (heldAtLeast_of_asks rfl (LockTable.heldAtLeast_of_some h))
  | wake r late => exact Or.inl (heldAtLeast_of_asks rfl (LockTable.heldAtLeast_of_some h))
  | release txn q =>
    have hmode := LockTable.modeOf?_release m.table txn other q page
    by_cases hsame : txn = other ∧ q = page
    · obtain ⟨rfl, rfl⟩ := hsame
      rw [if_pos ⟨rfl, rfl⟩] at hmode
      have hheld : m.table.holds txn q = true := by rw [LockTable.holds, h]; rfl
      refine Or.inr ⟨hmode, ?_⟩
      show (m.table.release txn q).2 = true
      rw [LockTable.release, if_pos hheld]
    · rw [if_neg hsame, h] at hmode
      exact Or.inl (LockTable.heldAtLeast_of_some hmode)
  | releaseAll txn =>
    have hmode := hm.modeOf?_releaseAll txn other page
    by_cases hsame : txn = other
    · subst hsame
      rw [if_pos rfl] at hmode
      have hfiled : page ∈ (m.releaseAll txn).2 := hm.mem_pagesOf.mpr ⟨held, h⟩
      refine Or.inr ⟨hmode, ?_⟩
      show (!(m.releaseAll txn).2.isEmpty) = true
      rw [List.isEmpty_eq_false_iff.mpr (List.ne_nil_of_mem hfiled)]
      rfl
    · rw [if_neg hsame, h] at hmode
      exact Or.inl (LockTable.heldAtLeast_of_some hmode)

/-- What a call does for a request that conflicts: it goes on to conflict, or the call frees the page and signals. -/
theorem conflicting_or_freed (hm : m.table.Proper) (hc : m.table.Conflicting txn page mode) (call : Call) :
    (m.after call).table.Conflicting txn page mode ∨ m.signals call = true ∧ m.Frees call txn page := by
  obtain ⟨other, held, hne, hheld, hconf⟩ := hc
  rcases kept_or_signalled hm hheld call with ⟨now, hnow, hcov⟩ | ⟨hgone, hsignal⟩
  · exact Or.inl ⟨other, now, hne, hnow, LockMode.conflicts_of_covers hcov hconf⟩
  · refine Or.inr ⟨hsignal, other, hne, ?_, ?_⟩
    · rw [LockTable.holds, hheld]
      rfl
    · rw [LockTable.holds, hgone]
      rfl

/-- Between a state in which a request conflicts and one in which it does not stands a call that freed the page and
signalled. -/
theorem exists_signal (hm : m.table.Proper) (hc : m.table.Conflicting txn page mode) {later : List Call}
    (hfree : ¬ (m.run later).table.Conflicting txn page mode) :
    ∃ before call rest, later = before ++ call :: rest ∧
      (m.run before).table.Conflicting txn page mode ∧
      ¬ (m.run (before ++ [call])).table.Conflicting txn page mode ∧
      (m.run before).signals call = true ∧ (m.run before).Frees call txn page := by
  induction later generalizing m with
  | nil => exact absurd hc hfree
  | cons call rest ih =>
    by_cases hstill : (m.after call).table.Conflicting txn page mode
    · obtain ⟨before, next, after, he, hconf⟩ := ih (proper_after hm call) hstill hfree
      exact ⟨call :: before, next, after, by rw [he]; rfl, hconf⟩
    · rcases conflicting_or_freed hm hc call with h | h
      · exact absurd h hstill
      · exact ⟨[], call, rest, rfl, hc, hstill, h⟩

/-- A request that goes to wait is refused in the state in which it waits. -/
theorem refuses_of_waits {r : LockRequest} (h : (m.acquireOrWait r).2 = none) : (m.acquireOrWait r).1.Refuses r := by
  have hrefused : (m.table.request r.txn r.page r.mode).2 = false := by
    unfold acquireOrWait at h
    split at h
    · cases h
    · rename_i he
      exact congrArg Prod.snd he
  show ((m.acquireOrWait r).1.table.request r.txn r.page r.mode).2 = false
  rw [table_acquireOrWait, LockTable.request_refused hrefused]
  exact hrefused

theorem refuses_of_waits_on (hm : m.table.Proper) {r : LockRequest} {late : Bool} (hr : r ∈ m.waiting)
    (h : (m.wake r late).2 = none) : (m.wake r late).1.Refuses r := by
  have hc : m.table.Conflicting r.txn r.page r.mode := by
    refine Classical.byContradiction fun hfree => ?_
    rw [wake_without_conflict hm hr hfree] at h
    cases h
  have hrefused : (m.table.request r.txn r.page r.mode).2 = false := hm.refused_iff.mpr hc
  have hsame := LockTable.request_refused hrefused
  show ((m.wake r late).1.table.request r.txn r.page r.mode).2 = false
  rcases table_wake m r late with he | he | he
  · rw [he, hrefused]
  · rw [he, hsame, hrefused]
  · rw [he, hsame, hsame, hrefused]

/-- Whatever a manager was asked before, a request that it refuses stays refused while locks are only asked for, and
while no call takes the page from another transaction. If it would be granted later then some call in between
freed the page and turned the refusal into a grant, and that call signalled. A request that goes to wait, or that wakes
up and waits on, is refused in the state in which it is left. -/
theorem no_missed_signal (calls : List Call) (r : LockRequest) :
    let m := empty.run calls
    (m.Refuses r →
      (∀ later, (∀ call ∈ later, call.asks = true) → (m.run later).Refuses r) ∧
      (∀ later, (∀ before call rest, later = before ++ call :: rest → ¬ (m.run before).Frees call r.txn r.page) →
        (m.run later).Refuses r) ∧
      ∀ later, ¬ (m.run later).Refuses r →
        ∃ before call rest, later = before ++ call :: rest ∧
          (m.run before).Refuses r ∧ ¬ (m.run (before ++ [call])).Refuses r ∧
          (m.run before).signals call = true ∧ (m.run before).Frees call r.txn r.page) ∧
    ((m.acquireOrWait r).2 = none → (m.acquireOrWait r).1.Refuses r) ∧
    ∀ late, r ∈ m.waiting → (m.wake r late).2 = none → (m.wake r late).1.Refuses r := by
  intro m
  have hm : m.table.Proper := proper_run LockTable.proper_empty calls
  have hopened : m.Refuses r → ∀ later, ¬ (m.run later).Refuses r →
      ∃ before call rest, later = before ++ call :: rest ∧
        (m.run before).Refuses r ∧ ¬ (m.run (before ++ [call])).Refuses r ∧
        (m.run before).signals call = true ∧ (m.run before).Frees call r.txn r.page := by
    intro hr later hfree
    have hiff : ∀ calls, (m.run calls).Refuses r ↔ (m.run calls).table.Conflicting r.txn r.page r.mode :=
      fun calls => refuses_iff (proper_run hm calls)
    rw [hiff later] at hfree
    obtain ⟨before, call, rest, he, hc, hopen, hsignal, hfrees⟩ :=
      exists_signal hm ((refuses_iff hm).mp hr) hfree
    rw [← hiff] at hc hopen
    exact ⟨before, call, rest, he, hc, hopen, hsignal, hfrees⟩
  refine ⟨fun hr => ⟨fun later hasks => ?_, fun later hkept => ?_, hopened hr⟩, refuses_of_waits,
    fun late hin hw => refuses_of_waits_on hm hin hw⟩
  · refine Classical.byContradiction fun hfree => ?_
    obtain ⟨before, call, rest, rfl, _, _, hsignal, _⟩ := hopened hr later hfree
    -- A call that asks does not signal.
    have ha := hasks call (by simp)
    cases call <;> first | cases hsignal | cases ha
  · refine Classical.byContradiction fun hfree => ?_
    obtain ⟨before, call, rest, he, _, _, _, hfrees⟩ := hopened hr later hfree
    exact hkept before call rest he hfrees

/-- A writer waits beside two readers, one of which is its own transaction. Another reader comes, its own transaction
lets go and the request stays refused; when both others are gone it is granted, and the last of them signalled. -/
theorem writer_waits_for_the_last_reader :
    let r : LockRequest := ⟨⟨1⟩, ⟨⟨0⟩, 0⟩, .exclusive, false⟩
    let m := empty.run [.acquire ⟨1⟩ ⟨⟨0⟩, 0⟩ .shared, .acquire ⟨2⟩ ⟨⟨0⟩, 0⟩ .shared, .acquireOrWait r]
    let later := [Call.acquire ⟨3⟩ ⟨⟨0⟩, 0⟩ .shared, .release ⟨1⟩ ⟨⟨0⟩, 0⟩, .releaseAll ⟨2⟩, .release ⟨3⟩ ⟨⟨0⟩, 0⟩]
    r ∈ m.waiting ∧ m.Refuses r ∧ ¬ (m.run later).Refuses r ∧
    ∃ before call rest, later = before ++ call :: rest ∧
      (m.run before).signals call = true ∧ (m.run before).Frees call r.txn r.page := by
  intro r m later
  have hrefused : m.Refuses r := by unfold Refuses; decide
  have hgranted : ¬ (m.run later).Refuses r := by unfold Refuses; decide
  obtain ⟨before, call, rest, he, _, _, hsignal, hfrees⟩ :=
    ((no_missed_signal _ r).1 hrefused).2.2 later hgranted
  exact ⟨by decide, hrefused, hgranted, before, call, rest, he, hsignal, hfrees⟩

end LockManager

end RowStore
