import Mathlib.Data.List.Nodup
import RowStore.Lock.Table

/-!
# Who holds which page

A lock table is proper when every locked page is held by readers or by one writer, each holder once, and the pages
filed under a transaction are exactly those that it holds. Requests and releases keep a table proper. In a
proper table a page that somebody holds is refused to everybody else in a conflicting mode, and a transaction
that lets go of all its pages holds nothing afterwards while the others hold what they held.
-/

namespace RowStore

/-- The mode of a lock after one in mode `wanted` was granted on top of what was held. -/
def LockMode.joined (held : Option LockMode) (wanted : LockMode) : LockMode :=
  if held = some .exclusive then .exclusive else wanted

namespace LockTable

section Dictionaries

variable {κ υ : Type} [DecidableEq κ]

theorem find?_fileList (d : Dict κ (List υ)) (k j : κ) (items : List υ) :
    (fileList d k items).find? j =
      if k = j then (if items.isEmpty then none else some items) else d.find? j := by
  unfold fileList
  split
  · rw [Dict.find?_erase]
  · rw [Dict.find?_insert]

theorem getD_find?_fileList (d : Dict κ (List υ)) (k j : κ) (items : List υ) :
    ((fileList d k items).find? j).getD [] = if k = j then items else (d.find? j).getD [] := by
  rw [find?_fileList]
  split
  · split
    · rename_i he
      rw [List.isEmpty_iff.mp he]
      rfl
    · rfl
  · rfl

theorem fileList_ne_nil {d : Dict κ (List υ)} (hd : ∀ k l, d.find? k = some l → l ≠ []) (k : κ)
    (items : List υ) : ∀ j l, (fileList d k items).find? j = some l → l ≠ [] := by
  intro j l hl
  rw [find?_fileList] at hl
  split at hl
  · split at hl
    · cases hl
    · rename_i he
      cases hl
      exact fun hn => he (List.isEmpty_iff.mpr hn)
  · exact hd j l hl

theorem insert_ne_nil {d : Dict κ (List υ)} (hd : ∀ k l, d.find? k = some l → l ≠ []) (k : κ) {items : List υ}
    (hitems : items ≠ []) : ∀ j l, (d.insert k items).find? j = some l → l ≠ [] := by
  intro j l hl
  rw [Dict.find?_insert] at hl
  split at hl
  · cases hl
    exact hitems
  · exact hd j l hl

end Dictionaries

/-- Holders as they are kept: at least one for each locked page, each once, a writer alone, and the pages of a
transaction filed exactly. -/
structure Proper (t : LockTable) : Prop where
  holders_ne_nil : ∀ page l, t.holders.find? page = some l → l ≠ []
  held_ne_nil : ∀ txn l, t.held.find? txn = some l → l ≠ []
  once : ∀ page, ((t.holdersOf page).map Holder.txn).Nodup
  alone : ∀ page h, h ∈ t.holdersOf page → h.mode = .exclusive → t.holdersOf page = [h]
  filed : ∀ txn page, page ∈ t.pagesOf txn ↔ ∃ h ∈ t.holdersOf page, h.txn = txn
  filed_once : ∀ txn, (t.pagesOf txn).Nodup

theorem proper_empty : empty.Proper where
  holders_ne_nil := by intro page l h; cases h
  held_ne_nil := by intro txn l h; cases h
  once := fun _ => List.nodup_nil
  alone := by intro page h hm; cases hm
  filed := by
    intro txn page
    constructor
    · intro h; cases h
    · rintro ⟨h, hm, _⟩; cases hm
  filed_once := fun _ => List.nodup_nil

theorem modeOf?_eq_some {t : LockTable} {txn : TxnId} {page : PageId} {mode : LockMode}
    (h : t.modeOf? txn page = some mode) : ⟨txn, mode⟩ ∈ t.holdersOf page := by
  unfold modeOf? at h
  obtain ⟨holder, hf, rfl⟩ := Option.map_eq_some_iff.mp h
  have ht := List.find?_some hf
  rw [decide_eq_true_eq] at ht
  rw [← ht]
  exact List.mem_of_find?_eq_some hf

theorem modeOf?_eq_none {t : LockTable} {txn : TxnId} {page : PageId} :
    t.modeOf? txn page = none ↔ ∀ h ∈ t.holdersOf page, h.txn ≠ txn := by
  unfold modeOf?
  rw [Option.map_eq_none_iff, List.find?_eq_none]
  simp only [decide_eq_true_eq]

theorem holds_iff {t : LockTable} {txn : TxnId} {page : PageId} :
    t.holds txn page = true ↔ ∃ h ∈ t.holdersOf page, h.txn = txn := by
  unfold holds
  constructor
  · intro h
    obtain ⟨mode, hm⟩ := Option.isSome_iff_exists.mp h
    exact ⟨_, modeOf?_eq_some hm, rfl⟩
  · rintro ⟨h, hm, rfl⟩
    rw [Option.isSome_iff_ne_none]
    intro hn
    exact modeOf?_eq_none.mp hn h hm rfl

theorem Proper.modeOf?_of_mem {t : LockTable} (ht : t.Proper) {h : Holder} {page : PageId}
    (hm : h ∈ t.holdersOf page) : t.modeOf? h.txn page = some h.mode := by
  cases hf : t.modeOf? h.txn page with
  | none => exact absurd rfl (modeOf?_eq_none.mp hf h hm)
  | some mode =>
    have hmem := modeOf?_eq_some hf
    have hinj := List.inj_on_of_nodup_map (ht.once page) hmem hm rfl
    rw [← hinj]

theorem holdersOf_insert (t : LockTable) (page q : PageId) (l : List Holder) (d : Dict TxnId (List PageId)) :
    (LockTable.mk (t.holders.insert page l) d).holdersOf q = if page = q then l else t.holdersOf q := by
  unfold holdersOf
  rw [Dict.find?_insert]
  split <;> rfl

theorem pagesOf_insert (t : LockTable) (txn other : TxnId) (l : List PageId) (d : Dict PageId (List Holder)) :
    (LockTable.mk d (t.held.insert txn l)).pagesOf other = if txn = other then l else t.pagesOf other := by
  unfold pagesOf
  rw [Dict.find?_insert]
  split <;> rfl

/-- What a granted request does: nothing, raise the sole holder's lock, or add a holder. -/
theorem request_granted {t : LockTable} {txn : TxnId} {page : PageId} {mode : LockMode}
    (h : (t.request txn page mode).2 = true) :
    (∃ held, t.modeOf? txn page = some held ∧ held.covers mode = true ∧ (t.request txn page mode).1 = t) ∨
    (t.modeOf? txn page = some .shared ∧ mode = .exclusive ∧ (t.holdersOf page).length = 1 ∧
      (t.request txn page mode).1 =
        ⟨t.holders.insert page (upgrade txn (t.holdersOf page)), t.held⟩) ∨
    (t.modeOf? txn page = none ∧
      (mode = .shared ∧ (∀ h ∈ t.holdersOf page, h.mode = .shared) ∨ t.holdersOf page = []) ∧
      (t.request txn page mode).1 =
        ⟨t.holders.insert page (t.holdersOf page ++ [⟨txn, mode⟩]),
          t.held.insert txn (t.pagesOf txn ++ [page])⟩) := by
  unfold request at h ⊢
  cases hm : t.modeOf? txn page with
  | some held =>
    simp only [hm] at h ⊢
    by_cases hc : held.covers mode = true
    · exact Or.inl ⟨held, rfl, hc, by rw [if_pos hc]⟩
    · rw [if_neg hc] at h ⊢
      by_cases hl : (t.holdersOf page).length = 1
      · refine Or.inr (Or.inl ⟨?_, ?_, hl, by rw [if_pos hl]⟩)
        · cases held <;> cases mode <;> first | rfl | exact absurd rfl hc
        · cases held <;> cases mode <;> first | rfl | exact absurd rfl hc
      · rw [if_neg hl] at h
        cases h
  | none =>
    simp only [hm] at h ⊢
    cases mode with
    | shared =>
      simp only at h ⊢
      by_cases ha : ((t.holdersOf page).all fun h => h.mode = .shared) = true
      · refine Or.inr (Or.inr ⟨trivial, Or.inl ⟨trivial, ?_⟩, by rw [if_pos ha]⟩)
        intro h' hh
        simpa using List.all_eq_true.mp ha h' hh
      · rw [if_neg ha] at h
        cases h
    | exclusive =>
      simp only at h ⊢
      by_cases ha : (t.holdersOf page).isEmpty = true
      · exact Or.inr (Or.inr ⟨trivial, Or.inr (List.isEmpty_iff.mp ha), by rw [if_pos ha]⟩)
      · rw [if_neg ha] at h
        cases h

theorem find?_upgrade {txn txn' : TxnId} (holders : List Holder) :
    ((upgrade txn holders).find? fun h => h.txn = txn').map Holder.mode =
      if txn = txn' then ((holders.find? fun h => h.txn = txn').map fun _ => LockMode.exclusive)
      else (holders.find? fun h => h.txn = txn').map Holder.mode := by
  induction holders with
  | nil => split <;> rfl
  | cons h rest ih =>
    unfold upgrade at ih ⊢
    rw [List.map_cons, List.find?_cons, List.find?_cons]
    by_cases h1 : h.txn = txn
    · by_cases h2 : txn = txn'
      · simp [h1, h2]
      · simp only [h1, if_true, h2, decide_false, if_false] at ih ⊢
        exact ih
    · by_cases h2 : h.txn = txn'
      · have h3 : ¬ txn' = txn := fun he => h1 (h2.trans he)
        have h4 : ¬ txn = txn' := fun he => h3 he.symm
        simp only [h2, h3, h4, if_false, decide_true, Option.map_some]
      · simp only [h1, if_false, h2, decide_false] at ih ⊢
        exact ih

/-- A granted request gives its transaction the mode it asked for, or leaves a stronger one, and changes the
mode of nobody else and on no other page. -/
theorem modeOf?_request {t : LockTable} {txn : TxnId} {page : PageId} {mode : LockMode}
    (h : (t.request txn page mode).2 = true) (txn' : TxnId) (page' : PageId) :
    (t.request txn page mode).1.modeOf? txn' page' =
      if txn = txn' ∧ page = page' then some (LockMode.joined (t.modeOf? txn page) mode)
      else t.modeOf? txn' page' := by
  rcases request_granted h with ⟨held, hm, hc, he⟩ | ⟨hm, rfl, hl, he⟩ | ⟨hm, _, he⟩
  · rw [he]
    split
    · rename_i heq
      obtain ⟨rfl, rfl⟩ := heq
      rw [hm]
      cases held <;> cases mode <;> first | rfl | cases hc
    · rfl
  · rw [he, modeOf?, holdersOf_insert]
    by_cases hp : page = page'
    · subst hp
      rw [if_pos rfl, find?_upgrade]
      by_cases ht : txn = txn'
      · subst ht
        rw [if_pos rfl, if_pos ⟨rfl, rfl⟩, hm]
        unfold modeOf? at hm
        obtain ⟨holder, hf, _⟩ := Option.map_eq_some_iff.mp hm
        rw [hf]
        rfl
      · rw [if_neg ht, if_neg fun hc => ht hc.1]
        rfl
    · rw [if_neg hp, if_neg fun hc => hp hc.2]
      rfl
  · rw [he, modeOf?, holdersOf_insert]
    by_cases hp : page = page'
    · subst hp
      rw [if_pos rfl, List.find?_append]
      by_cases ht : txn = txn'
      · subst ht
        have hn : ((t.holdersOf page).find? fun h => h.txn = txn) = none := by
          rwa [modeOf?, Option.map_eq_none_iff] at hm
        rw [hn, if_pos ⟨rfl, rfl⟩, hm]
        simp [LockMode.joined]
      · have hn : ([⟨txn, mode⟩] : List Holder).find? (fun h => h.txn = txn') = none := by simp [ht]
        rw [hn, Option.or_none, if_neg fun hc => ht hc.1]
        rfl
    · rw [if_neg hp, if_neg fun hc => hp hc.2]
      rfl

/-- Whoever asks for a page that somebody else holds in a conflicting mode is refused. -/
theorem Proper.request_conflict {t : LockTable} (ht : t.Proper) {txn other : TxnId} {page : PageId}
    {held wanted : LockMode} (hne : other ≠ txn) (hm : t.modeOf? other page = some held)
    (hc : held = .exclusive ∨ wanted = .exclusive) : (t.request txn page wanted).2 = false := by
  have hmem := modeOf?_eq_some hm
  cases hg : (t.request txn page wanted).2 with
  | false => rfl
  | true =>
    exfalso
    rcases request_granted hg with ⟨own, ho, hcov, _⟩ | ⟨ho, _, hl, _⟩ | ⟨_, hfree, _⟩
    · have hown := modeOf?_eq_some ho
      rcases hc with rfl | rfl
      · rw [ht.alone page _ hmem rfl, List.mem_singleton] at hown
        exact hne (congrArg Holder.txn hown).symm
      · have hx : own = .exclusive := by cases own <;> first | rfl | cases hcov
        rw [ht.alone page _ hown hx, List.mem_singleton] at hmem
        exact hne (congrArg Holder.txn hmem)
    · have hown := modeOf?_eq_some ho
      obtain ⟨h, hh⟩ := List.length_eq_one_iff.mp hl
      rw [hh, List.mem_singleton] at hown hmem
      exact hne (congrArg Holder.txn (hmem.trans hown.symm))
    · rcases hfree with ⟨rfl, hall⟩ | hnil
      · have hs := hall _ hmem
        rcases hc with rfl | hw
        · cases hs
        · cases hw
      · rw [hnil] at hmem
        cases hmem

theorem map_txn_upgrade (txn : TxnId) (holders : List Holder) :
    (upgrade txn holders).map Holder.txn = holders.map Holder.txn := by
  unfold upgrade
  rw [List.map_map]
  refine List.map_congr_left fun h _ => ?_
  show (if h.txn = txn then _ else _ : Holder).txn = h.txn
  split
  · rename_i he
    exact he.symm
  · rfl

/-- A table stays proper when the holders of one page are replaced by proper holders that are the same
transactions. -/
theorem Proper.replace {t : LockTable} (ht : t.Proper) {page : PageId} {l : List Holder}
    (hsame : l.map Holder.txn = (t.holdersOf page).map Holder.txn) (hne : l ≠ [])
    (halone : ∀ h ∈ l, h.mode = .exclusive → l = [h]) : Proper ⟨t.holders.insert page l, t.held⟩ where
  holders_ne_nil := insert_ne_nil ht.holders_ne_nil page hne
  held_ne_nil := ht.held_ne_nil
  once := by
    intro q
    rw [holdersOf_insert]
    split
    · rename_i hq
      rw [hsame]
      exact ht.once page
    · exact ht.once q
  alone := by
    intro q h hm hx
    rw [holdersOf_insert] at hm ⊢
    split at hm
    · rename_i hq
      rw [if_pos hq]
      exact halone h hm hx
    · rename_i hq
      rw [if_neg hq]
      exact ht.alone q h hm hx
  filed := by
    intro txn q
    rw [holdersOf_insert]
    have hf := ht.filed txn q
    split
    · rename_i hq
      subst hq
      refine hf.trans ?_
      have hmap : ∀ ls : List Holder, (∃ h ∈ ls, h.txn = txn) ↔ txn ∈ ls.map Holder.txn := by simp
      rw [hmap, hmap, hsame]
    · exact hf
  filed_once := ht.filed_once

/-- A table stays proper when the one holder of a page raises its lock. -/
theorem Proper.raise {t : LockTable} (ht : t.Proper) {txn : TxnId} {page : PageId} {mode : LockMode}
    (hm : t.modeOf? txn page = some mode) (hl : (t.holdersOf page).length = 1) :
    Proper ⟨t.holders.insert page (upgrade txn (t.holdersOf page)), t.held⟩ := by
  obtain ⟨h, hh⟩ := List.length_eq_one_iff.mp hl
  have hown := modeOf?_eq_some hm
  rw [hh, List.mem_singleton] at hown
  have hup : upgrade txn (t.holdersOf page) = [⟨txn, .exclusive⟩] := by
    rw [hh, ← hown]
    simp [upgrade]
  refine ht.replace (map_txn_upgrade txn _) ?_ fun h' hm' _ => ?_
  · rw [hup]
    exact List.cons_ne_nil _ _
  · rw [hup] at hm' ⊢
    rw [List.mem_singleton.mp hm']

/-- If a newcomer joins readers as a reader, or comes to a free page, a writer among the holders is the only holder. -/
theorem alone_concat {l : List Holder} {txn : TxnId} {mode : LockMode}
    (hfree : (mode = .shared ∧ ∀ h ∈ l, h.mode = .shared) ∨ l = []) :
    ∀ h ∈ l ++ [⟨txn, mode⟩], h.mode = .exclusive → l ++ [⟨txn, mode⟩] = [h] := by
  intro h hmem hx
  rcases hfree with ⟨rfl, hall⟩ | rfl
  · -- Among readers nobody writes, the newcomer included.
    rcases List.mem_append.mp hmem with hold | hlast
    · rw [hall h hold] at hx
      cases hx
    · rw [List.mem_singleton.mp hlast] at hx
      cases hx
  · rw [List.nil_append] at hmem ⊢
    rw [List.mem_singleton.mp hmem]

/-- A table stays proper when a transaction joins the holders of a page that it does not hold yet, as a reader among
readers or in any mode on a free page. -/
theorem Proper.join {t : LockTable} (ht : t.Proper) {txn : TxnId} {page : PageId} {mode : LockMode}
    (hm : t.modeOf? txn page = none)
    (hfree : (mode = .shared ∧ ∀ h ∈ t.holdersOf page, h.mode = .shared) ∨ t.holdersOf page = []) :
    Proper ⟨t.holders.insert page (t.holdersOf page ++ [⟨txn, mode⟩]),
      t.held.insert txn (t.pagesOf txn ++ [page])⟩ := by
  have hnew := modeOf?_eq_none.mp hm
  have hunheld : txn ∉ (t.holdersOf page).map Holder.txn := fun hmem => by
    obtain ⟨h, hold, htx⟩ := List.mem_map.mp hmem
    exact hnew h hold htx
  have hunfiled : page ∉ t.pagesOf txn := fun hp => by
    obtain ⟨h, hold, htx⟩ := (ht.filed txn page).mp hp
    exact hnew h hold htx
  exact {
    holders_ne_nil := insert_ne_nil ht.holders_ne_nil page (List.concat_ne_nil _ _)
    held_ne_nil := insert_ne_nil ht.held_ne_nil txn (List.concat_ne_nil _ _)
    once := by
      intro q
      rw [holdersOf_insert]
      split
      · rw [List.map_append, List.map_singleton, ← List.concat_eq_append]
        exact (ht.once page).concat hunheld
      · exact ht.once q
    alone := by
      intro q h hmem hx
      rw [holdersOf_insert] at hmem ⊢
      split at hmem
      · rename_i hq
        rw [if_pos hq]
        exact alone_concat hfree h hmem hx
      · rename_i hq
        rw [if_neg hq]
        exact ht.alone q h hmem hx
    filed := by
      intro txn' q
      rw [pagesOf_insert, holdersOf_insert]
      have hf := ht.filed txn' q
      by_cases htx : txn = txn'
      · subst htx
        rw [if_pos rfl, List.mem_append, List.mem_singleton, hf]
        by_cases hq : page = q
        · subst hq
          simp
        · rw [if_neg hq]
          have hq' : ¬ q = page := fun e => hq e.symm
          simp [hq']
      · rw [if_neg htx, hf]
        by_cases hq : page = q
        · subst hq
          rw [if_pos rfl]
          simp [htx]
        · rw [if_neg hq]
    filed_once := by
      intro txn'
      rw [pagesOf_insert]
      split
      · rw [← List.concat_eq_append]
        exact (ht.filed_once txn).concat hunfiled
      · exact ht.filed_once txn' }

theorem Proper.request {t : LockTable} (ht : t.Proper) (txn : TxnId) (page : PageId) (mode : LockMode) :
    (t.request txn page mode).1.Proper := by
  cases hg : (t.request txn page mode).2 with
  | false =>
    rw [request_refused hg]
    exact ht
  | true =>
    rcases request_granted hg with ⟨_, _, _, he⟩ | ⟨hm, _, hl, he⟩ | ⟨hm, hfree, he⟩
    · rw [he]
      exact ht
    · rw [he]
      exact ht.raise hm hl
    · rw [he]
      exact ht.join hm hfree

/-- A transaction has at once what it holds already. -/
theorem request_of_covers {t : LockTable} {txn : TxnId} {page : PageId} {held mode : LockMode}
    (h : t.modeOf? txn page = some held) (hc : held.covers mode = true) : t.request txn page mode = (t, true) := by
  unfold request
  simp only [h, hc, if_true]

theorem request_of_free {t : LockTable} {page : PageId} (h : t.holdersOf page = []) (txn : TxnId)
    (mode : LockMode) : (t.request txn page mode).2 = true := by
  have hm : t.modeOf? txn page = none := by
    unfold modeOf?
    rw [h]
    rfl
  unfold request
  simp only [hm, h]
  cases mode <;> rfl

/-- Nobody waits for a page that nobody else holds. -/
theorem Proper.request_of_alone {t : LockTable} (ht : t.Proper) {txn : TxnId} {page : PageId}
    (h : ∀ other, other ≠ txn → t.modeOf? other page = none) (mode : LockMode) :
    (t.request txn page mode).2 = true := by
  cases hl : t.holdersOf page with
  | nil => exact request_of_free hl txn mode
  | cons holder rest =>
    have howner : ∀ other ∈ t.holdersOf page, other.txn = txn := by
      intro other hm
      refine Classical.byContradiction fun hne => ?_
      have hmode := ht.modeOf?_of_mem hm
      rw [h other.txn hne] at hmode
      cases hmode
    have honce := ht.once page
    rw [hl] at honce howner
    have hrest : rest = [] := by
      cases rest with
      | nil => rfl
      | cons other rest =>
        have htxn := (howner other (by simp)).trans (howner holder (by simp)).symm
        rw [List.map_cons, List.map_cons, htxn, List.nodup_cons] at honce
        exact absurd List.mem_cons_self honce.1
    have hmode : t.modeOf? txn page = some holder.mode := by
      rw [← howner holder (by simp)]
      exact ht.modeOf?_of_mem (by rw [hl]; exact List.mem_cons_self)
    unfold LockTable.request
    simp only [hmode, hl, hrest]
    split <;> rfl

end LockTable

end RowStore
