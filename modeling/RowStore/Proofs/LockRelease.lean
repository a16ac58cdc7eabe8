import RowStore.Proofs.LockModes

/-!
# Letting go of pages

A release takes its transaction off one page and leaves every other holder, page and mode alone. Letting go of all
pages goes through the pages that are filed under the transaction; in a proper table these are all that it holds.
-/

namespace RowStore.LockTable

theorem filter_of_not_held {t : LockTable} {txn : TxnId} {page : PageId} (h : ¬ t.holds txn page = true) :
    (t.holdersOf page).filter (fun h => h.txn ≠ txn) = t.holdersOf page := by
  refine List.filter_eq_self.mpr fun holder hm => ?_
  simp only [ne_eq, decide_not, Bool.not_eq_true', decide_eq_false_iff_not]
  exact fun ht => h (holds_iff.mpr ⟨holder, hm, ht⟩)

theorem holdersOf_release (t : LockTable) (txn : TxnId) (page q : PageId) :
    (t.release txn page).1.holdersOf q =
      if page = q then (t.holdersOf q).filter (fun h => h.txn ≠ txn) else t.holdersOf q := by
  unfold release
  by_cases hh : t.holds txn page = true
  · rw [if_pos hh]
    show ((fileList t.holders page _).find? q).getD [] = _
    rw [getD_find?_fileList]
    split
    · rename_i hq
      rw [hq]
    · rfl
  · rw [if_neg hh]
    split
    · rename_i hq
      rw [← hq, filter_of_not_held hh]
    · rfl

theorem Proper.pagesOf_release {t : LockTable} (ht : t.Proper) (txn txn' : TxnId) (page : PageId) :
    (t.release txn page).1.pagesOf txn' =
      if txn = txn' then (t.pagesOf txn').filter (fun p => p ≠ page) else t.pagesOf txn' := by
  unfold release
  by_cases hh : t.holds txn page = true
  · rw [if_pos hh]
    show ((fileList t.held txn _).find? txn').getD [] = _
    rw [getD_find?_fileList]
    split
    · rename_i hq
      rw [hq]
    · rfl
  · rw [if_neg hh]
    split
    · rename_i hq
      symm
      refine List.filter_eq_self.mpr fun p hp => ?_
      simp only [ne_eq, decide_not, Bool.not_eq_true', decide_eq_false_iff_not]
      rintro rfl
      rw [← hq] at hp
      exact hh (holds_iff.mpr ((ht.filed txn p).mp hp))
    · rfl

theorem modeOf?_release (t : LockTable) (txn txn' : TxnId) (page page' : PageId) :
    (t.release txn page).1.modeOf? txn' page' =
      if txn = txn' ∧ page = page' then none else t.modeOf? txn' page' := by
  unfold modeOf?
  rw [holdersOf_release]
  by_cases hp : page = page'
  · rw [if_pos hp, List.find?_filter]
    by_cases htx : txn = txn'
    · rw [if_pos ⟨htx, hp⟩, Option.map_eq_none_iff, List.find?_eq_none]
      intro h _
      simp [htx]
    · rw [if_neg fun hc => htx hc.1]
      congr 2
      funext h
      by_cases he : h.txn = txn'
      · have hne : ¬ h.txn = txn := fun e => htx (e.symm.trans he)
        simp [he, Ne.symm htx]
      · simp [he]
  · rw [if_neg hp, if_neg fun hc => hp hc.2]

theorem Proper.release {t : LockTable} (ht : t.Proper) (txn : TxnId) (page : PageId) :
    (t.release txn page).1.Proper where
  holders_ne_nil := by
    unfold LockTable.release
    split
    · exact fileList_ne_nil ht.holders_ne_nil page _
    · exact ht.holders_ne_nil
  held_ne_nil := by
    unfold LockTable.release
    split
    · exact fileList_ne_nil ht.held_ne_nil txn _
    · exact ht.held_ne_nil
  once := by
    intro q
    rw [holdersOf_release]
    split
    · exact (ht.once q).sublist (List.filter_sublist.map _)
    · exact ht.once q
  alone := by
    intro q h hm hx
    rw [holdersOf_release] at hm ⊢
    split at hm
    · rename_i hq
      obtain ⟨hm', hne⟩ := List.mem_filter.mp hm
      rw [if_pos hq, ht.alone q h hm' hx]
      exact List.filter_eq_self.mpr fun h' hs => List.mem_singleton.mp hs ▸ hne
    · rename_i hq
      rw [if_neg hq]
      exact ht.alone q h hm hx
  filed := by
    intro txn' q
    rw [ht.pagesOf_release, holdersOf_release]
    have hf := ht.filed txn' q
    by_cases htx : txn = txn'
    · rw [if_pos htx, List.mem_filter]
      by_cases hq : page = q
      · rw [if_pos hq]
        simp [hq, htx]
      · rw [if_neg hq, hf]
        have hq' : ¬ q = page := fun e => hq e.symm
        simp [hq']
    · rw [if_neg htx, hf]
      by_cases hq : page = q
      · rw [if_pos hq]
        constructor
        · rintro ⟨h, hm, he⟩
          refine ⟨h, List.mem_filter.mpr ⟨hm, ?_⟩, he⟩
          simp only [ne_eq, decide_not, Bool.not_eq_true', decide_eq_false_iff_not]
          exact fun e => htx (e.symm.trans he)
        · rintro ⟨h, hm, he⟩
          exact ⟨h, List.mem_of_mem_filter hm, he⟩
      · rw [if_neg hq]
  filed_once := by
    intro txn'
    rw [ht.pagesOf_release]
    split
    · exact (ht.filed_once txn').sublist List.filter_sublist
    · exact ht.filed_once txn'

def releaseEach (t : LockTable) (txn : TxnId) (pages : List PageId) : LockTable :=
  pages.foldl (fun t page => (t.release txn page).1) t

theorem releaseAll_eq (t : LockTable) (txn : TxnId) :
    t.releaseAll txn = (t.releaseEach txn (t.pagesOf txn), t.pagesOf txn) := rfl

theorem Proper.releaseEach {t : LockTable} (ht : t.Proper) (txn : TxnId) (pages : List PageId) :
    (t.releaseEach txn pages).Proper := by
  induction pages generalizing t with
  | nil => exact ht
  | cons page rest ih => exact ih (ht.release txn page)

theorem holdersOf_releaseEach (t : LockTable) (txn : TxnId) (pages : List PageId) (q : PageId) :
    (t.releaseEach txn pages).holdersOf q =
      if q ∈ pages then (t.holdersOf q).filter (fun h => h.txn ≠ txn) else t.holdersOf q := by
  induction pages generalizing t with
  | nil => rfl
  | cons page rest ih =>
    have hstep : t.releaseEach txn (page :: rest) = (t.release txn page).1.releaseEach txn rest := rfl
    rw [hstep, ih, holdersOf_release]
    by_cases hq : page = q
    · subst hq
      simp [List.filter_filter]
    · have hq' : ¬ q = page := fun e => hq e.symm
      simp [hq, hq']

theorem Proper.releaseAll {t : LockTable} (ht : t.Proper) (txn : TxnId) : (t.releaseAll txn).1.Proper :=
  ht.releaseEach txn _

/-- Letting go of all pages takes the transaction off every page and nobody else off any. -/
theorem Proper.holdersOf_releaseAll {t : LockTable} (ht : t.Proper) (txn : TxnId) (q : PageId) :
    (t.releaseAll txn).1.holdersOf q = (t.holdersOf q).filter (fun h => h.txn ≠ txn) := by
  rw [releaseAll_eq, holdersOf_releaseEach]
  split
  · rfl
  · rename_i hq
    refine (filter_of_not_held fun hh => hq ?_).symm
    exact (ht.filed txn q).mpr (holds_iff.mp hh)

theorem Proper.modeOf?_releaseAll {t : LockTable} (ht : t.Proper) (txn txn' : TxnId) (page : PageId) :
    (t.releaseAll txn).1.modeOf? txn' page = if txn = txn' then none else t.modeOf? txn' page := by
  unfold modeOf?
  rw [ht.holdersOf_releaseAll, List.find?_filter]
  split
  · rename_i htx
    rw [Option.map_eq_none_iff, List.find?_eq_none]
    intro h _
    simp [htx]
  · rename_i htx
    congr 2
    funext h
    by_cases he : h.txn = txn'
    · simp [he, Ne.symm htx]
    · simp [he]

end RowStore.LockTable
