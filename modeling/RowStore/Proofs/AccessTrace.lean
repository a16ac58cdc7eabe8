import Mathlib.Data.List.Induction
import RowStore.Replacer

/-!
# Accesses to pages, in full

A replacer keeps a few access times of each page. The trace keeps all of them: every access takes place at a time of
its own, and a page that is removed or evicted starts afresh. What a replacer keeps after any uses is the end of
what the trace holds, page by page, and it tracks exactly the pages that were accessed since they were last
forgotten.
-/

namespace RowStore

/-- What happens to the pages: one is accessed, or one is removed or evicted. -/
inductive Touch where
  | accessed (page : PageId)
  | forgotten (page : PageId)
deriving DecidableEq, Repr

abbrev AccessTrace := List Touch

namespace AccessTrace

/-- The time and the access times of a page, after one more touch. -/
def note (page : PageId) : Nat × List Nat → Touch → Nat × List Nat
  | (now, times), .accessed p => (now + 1, if p = page then times ++ [now] else times)
  | (now, times), .forgotten p => (now, if p = page then [] else times)

/-- The times of all accesses to a page since it was last forgotten, oldest first. An access takes one unit of time,
and nothing else takes any. -/
def timesOf (l : AccessTrace) (page : PageId) : List Nat := (l.foldl (note page) (0, [])).2

def clock (l : AccessTrace) : Nat := l.countP fun touch => match touch with | .accessed _ => true | .forgotten _ => false

theorem fst_foldl_note (l : AccessTrace) (page : PageId) : (l.foldl (note page) (0, [])).1 = l.clock := by
  induction l using List.reverseRecOn with
  | nil => rfl
  | append_singleton rest touch ih =>
    rw [List.foldl_append]
    cases touch with
    | accessed p =>
      show (rest.foldl (note page) (0, [])).1 + 1 = clock (rest ++ [.accessed p])
      rw [ih, clock, clock, List.countP_append]
      rfl
    | forgotten p =>
      show (rest.foldl (note page) (0, [])).1 = clock (rest ++ [.forgotten p])
      rw [ih, clock, clock, List.countP_append]
      rfl

@[simp] theorem timesOf_accessed (l : AccessTrace) (p page : PageId) :
    timesOf (l ++ [.accessed p]) page = if p = page then timesOf l page ++ [l.clock] else timesOf l page := by
  rw [timesOf, List.foldl_append, ← fst_foldl_note l page]
  rfl

@[simp] theorem timesOf_forgotten (l : AccessTrace) (p page : PageId) :
    timesOf (l ++ [.forgotten p]) page = if p = page then [] else timesOf l page := by
  rw [timesOf, List.foldl_append]
  rfl

@[simp] theorem clock_accessed (l : AccessTrace) (p : PageId) : clock (l ++ [.accessed p]) = l.clock + 1 := by
  rw [clock, List.countP_append]
  rfl

@[simp] theorem clock_forgotten (l : AccessTrace) (p : PageId) : clock (l ++ [.forgotten p]) = l.clock := by
  rw [clock, List.countP_append]
  rfl

theorem lt_clock {l : AccessTrace} {page : PageId} {time : Nat} (h : time ∈ l.timesOf page) : time < l.clock := by
  induction l using List.reverseRecOn with
  | nil => cases h
  | append_singleton rest touch ih =>
    cases touch with
    | accessed p =>
      rw [timesOf_accessed] at h
      rw [clock_accessed]
      split at h
      · rcases List.mem_append.mp h with hrest | hnow
        · exact Nat.lt_succ_of_lt (ih hrest)
        · exact List.mem_singleton.mp hnow ▸ Nat.lt_succ_self _
      · exact Nat.lt_succ_of_lt (ih h)
    | forgotten p =>
      rw [timesOf_forgotten] at h
      rw [clock_forgotten]
      split at h
      · cases h
      · exact ih h

theorem page_of_time {l : AccessTrace} {p q : PageId} {time : Nat} (hp : time ∈ l.timesOf p)
    (hq : time ∈ l.timesOf q) : p = q := by
  induction l using List.reverseRecOn with
  | nil => cases hp
  | append_singleton rest touch ih =>
    cases touch with
    | accessed x =>
      rw [timesOf_accessed] at hp hq
      by_cases hxp : x = p
      · by_cases hxq : x = q
        · exact hxp.symm.trans hxq
        · rw [if_pos hxp] at hp
          rw [if_neg hxq] at hq
          rcases List.mem_append.mp hp with hrest | hnow
          · exact ih hrest hq
          · rw [List.mem_singleton] at hnow
            exact absurd (lt_clock hq) (by omega)
      · rw [if_neg hxp] at hp
        by_cases hxq : x = q
        · rw [if_pos hxq] at hq
          rcases List.mem_append.mp hq with hrest | hnow
          · exact ih hp hrest
          · rw [List.mem_singleton] at hnow
            exact absurd (lt_clock hp) (by omega)
        · rw [if_neg hxq] at hq
          exact ih hp hq
    | forgotten x =>
      rw [timesOf_forgotten] at hp hq
      split at hp
      · cases hp
      · split at hq
        · cases hq
        · exact ih hp hq

end AccessTrace

namespace Replacer

/-- What can be asked of a replacer. -/
inductive Use where
  | access (page : PageId)
  | remove (page : PageId)
  | evict (evictable : PageId → Bool)

def after (r : Replacer) : Use → Replacer
  | .access page => r.recordAccess page
  | .remove page => r.remove page
  | .evict evictable => (r.evict evictable).1

/-- What a use does to the pages. -/
def touches (r : Replacer) : Use → AccessTrace
  | .access page => [.accessed page]
  | .remove page => [.forgotten page]
  | .evict evictable => (r.evict evictable).2.toList.map .forgotten

def run (r : Replacer) (uses : List Use) : Replacer := uses.foldl after r

def trace (r : Replacer) : List Use → AccessTrace
  | [] => []
  | use :: rest => r.touches use ++ (r.after use).trace rest

def touched (r : Replacer) : Touch → Replacer
  | .accessed page => r.recordAccess page
  | .forgotten page => r.remove page

theorem after_eq (r : Replacer) (use : Use) : r.after use = (r.touches use).foldl touched r := by
  cases use with
  | access page => rfl
  | remove page => rfl
  | evict evictable =>
    show (r.evict evictable).1 = ((r.evict evictable).2.toList.map .forgotten).foldl touched r
    unfold evict
    cases r.victim? evictable <;> rfl

/-- A replacer after any uses is determined by their trace. -/
theorem run_eq (r : Replacer) (uses : List Use) : r.run uses = (r.trace uses).foldl touched r := by
  induction uses generalizing r with
  | nil => rfl
  | cons use rest ih =>
    show (r.after use).run rest = _
    rw [ih, trace, List.foldl_append, ← after_eq]

theorem length_lastOf {α : Type} (k : Nat) (items : List α) : (lastOf k items).length = min k items.length := by
  rw [lastOf, List.length_drop]
  omega

/-- Of a list with one more item only the end of what was kept counts. -/
theorem lastOf_concat {α : Type} {k : Nat} (hk : 0 < k) (items : List α) (item : α) :
    lastOf k (lastOf k items ++ [item]) = lastOf k (items ++ [item]) := by
  unfold lastOf
  rw [List.length_append, List.length_append, List.length_drop, List.length_singleton,
    List.drop_append_of_le_length (by rw [List.length_drop]; omega), List.drop_append_of_le_length (by omega),
    List.drop_drop]
  congr 2
  omega

/-- What a replacer keeps of a trace: the time, and the last access times of each page that was accessed since it was
last forgotten. -/
structure Keeps (r : Replacer) (l : AccessTrace) : Prop where
  clock : r.clock = l.clock
  history : ∀ page, r.history.find? page = if l.timesOf page = [] then none else some (lastOf r.k (l.timesOf page))

theorem keeps_new (k : Nat) : (new k).Keeps [] where
  clock := rfl
  history := fun _ => rfl

theorem k_touched (r : Replacer) (touch : Touch) : (r.touched touch).k = r.k := by
  cases touch <;> rfl

theorem Keeps.touched {r : Replacer} {l : AccessTrace} (h : r.Keeps l) (hk : 0 < r.k) (touch : Touch) :
    (r.touched touch).Keeps (l ++ [touch]) := by
  cases touch with
  | accessed p =>
    refine ⟨?_, fun page => ?_⟩
    · show r.clock + 1 = _
      rw [h.clock, AccessTrace.clock_accessed]
    · show (r.history.insert p _).find? page = _
      rw [Dict.find?_insert, AccessTrace.timesOf_accessed]
      by_cases hp : p = page
      · subst hp
        rw [if_pos rfl, if_pos rfl, if_neg (by simp), h.history p, h.clock]
        show _ = some (lastOf r.k _)
        by_cases ht : l.timesOf p = []
        · rw [if_pos ht, ht]
          rfl
        · rw [if_neg ht, Option.getD_some, lastOf_concat hk]
      · rw [if_neg hp, if_neg hp]
        exact h.history page
  | forgotten p =>
    refine ⟨?_, fun page => ?_⟩
    · show r.clock = _
      rw [h.clock, AccessTrace.clock_forgotten]
    · show (r.history.erase p).find? page = _
      rw [Dict.find?_erase, AccessTrace.timesOf_forgotten]
      by_cases hp : p = page
      · rw [if_pos hp, if_pos hp, if_pos rfl]
      · rw [if_neg hp, if_neg hp]
        exact h.history page

theorem keeps_foldl (k : Nat) (l : AccessTrace) :
    (l.foldl touched (new k)).Keeps l ∧ (l.foldl touched (new k)).k = max k 1 := by
  induction l using List.reverseRecOn with
  | nil => exact ⟨keeps_new k, rfl⟩
  | append_singleton rest touch ih =>
    obtain ⟨hkeeps, hk⟩ := ih
    rw [List.foldl_append, List.foldl_cons, List.foldl_nil]
    exact ⟨hkeeps.touched (by omega) touch, (k_touched _ touch).trans hk⟩

/-- After any uses a replacer keeps the end of their trace. -/
theorem keeps_run (k : Nat) (uses : List Use) :
    ((new k).run uses).Keeps ((new k).trace uses) ∧ ((new k).run uses).k = max k 1 := by
  rw [run_eq]
  exact keeps_foldl k _

theorem Keeps.mem_keys {r : Replacer} {l : AccessTrace} (h : r.Keeps l) (page : PageId) :
    page ∈ r.history.keys ↔ l.timesOf page ≠ [] := by
  rw [Dict.mem_keys_iff, h.history page]
  split <;> simp [*]

end Replacer

end RowStore
