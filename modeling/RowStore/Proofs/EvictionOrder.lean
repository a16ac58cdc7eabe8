import RowStore.Proofs.AccessTrace
import RowStore.Proofs.PoolRoom

/-!
# Which page is evicted

Among the pages that may go, the evicted one is determined by the full trace of accesses: one with fewer than `k`
accesses whose first access is earliest, or else the one whose k-th last access is earliest. Access times of different
pages differ, so there is one such page and the order in which the entries are gone through does not matter.
-/

namespace RowStore

def Earlier (a b : Option Nat) : Prop := ∃ s t, a = some s ∧ b = some t ∧ s < t

namespace AccessTrace

def Candidate (l : AccessTrace) (evictable : PageId → Bool) (page : PageId) : Prop :=
  l.timesOf page ≠ [] ∧ evictable page = true

/-- The page to be given up. If candidates have fewer than `k` accesses it is the one of these that was accessed first;
otherwise it is the candidate whose k-th last access came first. -/
structure Victim (l : AccessTrace) (k : Nat) (evictable : PageId → Bool) (page : PageId) : Prop where
  candidate : l.Candidate evictable page
  few : (∃ q, l.Candidate evictable q ∧ (l.timesOf q).length < k) →
    (l.timesOf page).length < k ∧ ∀ q, l.Candidate evictable q → (l.timesOf q).length < k → q ≠ page →
      Earlier (l.timesOf page).head? (l.timesOf q).head?
  many : (∀ q, l.Candidate evictable q → k ≤ (l.timesOf q).length) →
    ∀ q, l.Candidate evictable q → q ≠ page →
      Earlier ((l.timesOf page).reverse[k - 1]?) ((l.timesOf q).reverse[k - 1]?)

end AccessTrace

namespace Replacer

theorem goesBefore_iff (k : Nat) (a b : List Nat) :
    goesBefore k a b = true ↔
      a.length < k ∧ k ≤ b.length ∨ (a.length < k ↔ b.length < k) ∧ a.headD 0 < b.headD 0 := by
  unfold goesBefore
  by_cases ha : a.length < k
  · by_cases hb : b.length < k
    · simp [ha, hb, Nat.not_le_of_lt hb]
    · simp [ha, hb, Nat.le_of_not_lt hb]
  · by_cases hb : b.length < k
    · simp [ha, hb]
    · simp [ha, hb]

theorem not_goesBefore_self (k : Nat) (a : List Nat) : ¬ goesBefore k a a = true := by
  rw [goesBefore_iff]
  omega

theorem not_goesBefore_of_goesBefore {k : Nat} {a b : List Nat} (h : goesBefore k a b = true) :
    ¬ goesBefore k b a = true := by
  rw [goesBefore_iff] at h ⊢
  omega

/-- If `c` does not give way before `b`, nor `b` before `a`, then `c` does not give way before `a`. -/
theorem not_goesBefore_trans {k : Nat} {a b c : List Nat} (hcb : ¬ goesBefore k c b = true)
    (hba : ¬ goesBefore k b a = true) : ¬ goesBefore k c a = true := by
  rw [goesBefore_iff] at hcb hba ⊢
  omega

/-- Of two pages with different oldest times one gives way before the other. -/
theorem goesBefore_of_not {k : Nat} {a b : List Nat} (h : ¬ goesBefore k b a = true)
    (hne : a.headD 0 ≠ b.headD 0) : goesBefore k a b = true := by
  rw [goesBefore_iff] at h ⊢
  omega

theorem not_goesBefore_firstToGo {k : Nat} {entries : List (PageId × List Nat)} {best : PageId × List Nat}
    (h : firstToGo k entries = some best) : ∀ entry ∈ entries, ¬ goesBefore k entry.2 best.2 = true := by
  have hfold : ∀ (rest : List (PageId × List Nat)) (first : PageId × List Nat), ∀ entry ∈ first :: rest,
      ¬ goesBefore k entry.2
        (rest.foldl (fun best entry => if goesBefore k entry.2 best.2 then entry else best) first).2 = true := by
    intro rest
    induction rest with
    | nil =>
      intro first entry hm
      rw [List.mem_singleton.mp hm]
      exact not_goesBefore_self k first.2
    | cons next rest ih =>
      intro first entry hm
      rw [List.foldl_cons]
      have hbest := ih (if goesBefore k next.2 first.2 then next else first)
      rcases List.mem_cons.mp hm with rfl | hm
      · refine not_goesBefore_trans ?_ (hbest _ List.mem_cons_self)
        split
        · exact not_goesBefore_of_goesBefore ‹_›
        · exact not_goesBefore_self k _
      · rcases List.mem_cons.mp hm with rfl | hrest
        · refine not_goesBefore_trans ?_ (hbest _ List.mem_cons_self)
          split
          · exact not_goesBefore_self k _
          · assumption
        · exact hbest entry (List.mem_cons_of_mem _ hrest)
  cases entries with
  | nil => cases h
  | cons first rest =>
    cases h
    exact hfold rest first

/-- The oldest kept times of different pages differ. -/
def Timed (r : Replacer) : Prop :=
  ∀ p q a b, r.history.find? p = some a → r.history.find? q = some b → a.headD 0 = b.headD 0 → p = q

theorem mem_entries_of_find? {r : Replacer} {page : PageId} {times : List Nat}
    (h : r.history.find? page = some times) : (page, times) ∈ r.history.entries := by
  obtain ⟨⟨p, t⟩, hf, rfl⟩ := Option.map_eq_some_iff.mp h
  have hp := List.find?_some hf
  rw [decide_eq_true_eq] at hp
  rw [← hp]
  exact List.mem_of_find?_eq_some hf

/-- The page to give up gives way before every other one that may go. -/
theorem Timed.victim?_eq_some_iff {r : Replacer} (hr : r.Timed) {evictable : PageId → Bool} {page : PageId} :
    r.victim? evictable = some page ↔
      evictable page = true ∧ ∃ times, r.history.find? page = some times ∧
        ∀ q other, q ≠ page → evictable q = true → r.history.find? q = some other →
          goesBefore r.k times other = true := by
  have hfirst : ∀ p, r.victim? evictable = some p → evictable p = true ∧
      ∃ times, r.history.find? p = some times ∧ ∀ q other, q ≠ p → evictable q = true →
        r.history.find? q = some other → goesBefore r.k times other = true := by
    intro p h
    obtain ⟨⟨p, times⟩, hf, rfl⟩ := Option.map_eq_some_iff.mp h
    obtain ⟨hm, hp⟩ := List.mem_filter.mp (firstToGo_mem hf)
    have hfind := Dict.find?_of_mem_entries hm
    refine ⟨hp, times, hfind, fun q other hne hq ho => ?_⟩
    have hmem : (q, other) ∈ r.history.entries.filter fun entry => evictable entry.1 :=
      List.mem_filter.mpr ⟨mem_entries_of_find? ho, hq⟩
    exact goesBefore_of_not (not_goesBefore_firstToGo hf _ hmem) fun he => hne (hr q p other times ho hfind he.symm)
  refine ⟨hfirst page, ?_⟩
  rintro ⟨hp, times, hfind, hall⟩
  have hm : page ∈ r.history.keys := by rw [Dict.mem_keys_iff, hfind]; rfl
  obtain ⟨p, hv⟩ := Option.isSome_iff_exists.mp (isSome_victim? hm hp)
  obtain ⟨hp', times', hfind', hall'⟩ := hfirst p hv
  by_cases he : p = page
  · rw [hv, he]
  · exact absurd (hall p times' he hp' hfind') (not_goesBefore_of_goesBefore (hall' page times (Ne.symm he) hp hfind))

/-- The choice depends on what is filed, not on the order of the entries. -/
theorem Timed.victim?_congr {r : Replacer} (hr : r.Timed) {d : Dict PageId (List Nat)}
    (hd : ∀ page, d.find? page = r.history.find? page) (evictable : PageId → Bool) :
    Replacer.victim? { r with history := d } evictable = r.victim? evictable := by
  have hr' : Timed { r with history := d } := by
    intro p q a b ha hb
    exact hr p q a b ((hd p).symm.trans ha) ((hd q).symm.trans hb)
  ext page
  rw [hr'.victim?_eq_some_iff, hr.victim?_eq_some_iff]
  simp only [hd]

/-- With fewer than `k` accesses the oldest kept time is the first access. -/
theorem head?_of_few {k : Nat} {times : List Nat} (hne : times ≠ []) (h : times.length < k) :
    times.head? = some ((lastOf k times).headD 0) := by
  have hall : lastOf k times = times := by
    unfold lastOf
    rw [Nat.sub_eq_zero_of_le (Nat.le_of_lt h)]
    rfl
  obtain ⟨first, rest, rfl⟩ := List.exists_cons_of_ne_nil hne
  rw [hall]
  rfl

/-- With at least `k` accesses the oldest kept time is the k-th last access. -/
theorem reverse_getElem?_of_many {k : Nat} {times : List Nat} (hk : 0 < k) (h : k ≤ times.length) :
    times.reverse[k - 1]? = some ((lastOf k times).headD 0) := by
  have hlt : times.length - k < times.length := by omega
  have hhead : (lastOf k times).headD 0 = times[times.length - k] := by
    unfold lastOf
    rw [List.drop_eq_getElem_cons hlt]
    rfl
  rw [hhead, List.getElem?_reverse (by omega), List.getElem?_eq_getElem (by omega)]
  congr 2
  omega

theorem headD_lastOf_mem {k : Nat} {times : List Nat} (hk : 0 < k) (hne : times ≠ []) :
    (lastOf k times).headD 0 ∈ times := by
  by_cases h : times.length < k
  · exact List.mem_of_head? (head?_of_few hne h)
  · exact List.mem_reverse.mp (List.mem_of_getElem? (reverse_getElem?_of_many hk (Nat.le_of_not_lt h)))

/-- The order of giving way, read off all access times. -/
theorem goesBefore_lastOf {k : Nat} (hk : 0 < k) {a b : List Nat} (ha : a ≠ []) (hb : b ≠ []) :
    goesBefore k (lastOf k a) (lastOf k b) = true ↔
      a.length < k ∧ (k ≤ b.length ∨ Earlier a.head? b.head?) ∨
        k ≤ a.length ∧ k ≤ b.length ∧ Earlier (a.reverse[k - 1]?) (b.reverse[k - 1]?) := by
  have hearlier : ∀ s t : Nat, Earlier (some s) (some t) ↔ s < t := by
    intro s t
    constructor
    · rintro ⟨s', t', hs, ht, hlt⟩
      cases hs
      cases ht
      exact hlt
    · exact fun hlt => ⟨s, t, rfl, rfl, hlt⟩
  rw [goesBefore_iff, length_lastOf, length_lastOf]
  by_cases hfa : a.length < k
  · by_cases hfb : b.length < k
    · rw [head?_of_few ha hfa, head?_of_few hb hfb, hearlier]
      omega
    · omega
  · by_cases hfb : b.length < k
    · omega
    · rw [reverse_getElem?_of_many hk (Nat.le_of_not_lt hfa), reverse_getElem?_of_many hk (Nat.le_of_not_lt hfb),
        hearlier]
      omega

theorem Keeps.find?_eq_some_iff {r : Replacer} {l : AccessTrace} (h : r.Keeps l) {page : PageId} {times : List Nat} :
    r.history.find? page = some times ↔ l.timesOf page ≠ [] ∧ times = lastOf r.k (l.timesOf page) := by
  rw [h.history page]
  by_cases ht : l.timesOf page = []
  · rw [if_pos ht]
    constructor
    · intro hn
      cases hn
    · exact fun hc => absurd ht hc.1
  · rw [if_neg ht]
    constructor
    · rintro ⟨rfl⟩
      exact ⟨ht, rfl⟩
    · exact fun hc => congrArg some hc.2.symm

theorem Keeps.timed {r : Replacer} {l : AccessTrace} (h : r.Keeps l) (hk : 0 < r.k) : r.Timed := by
  intro p q a b ha hb he
  obtain ⟨hp, rfl⟩ := h.find?_eq_some_iff.mp ha
  obtain ⟨hq, rfl⟩ := h.find?_eq_some_iff.mp hb
  have hmem := headD_lastOf_mem hk hp
  rw [he] at hmem
  exact AccessTrace.page_of_time hmem (headD_lastOf_mem hk hq)

theorem Keeps.victim?_iff_goesBefore {r : Replacer} {l : AccessTrace} (h : r.Keeps l) (hk : 0 < r.k)
    {evictable : PageId → Bool} {page : PageId} :
    r.victim? evictable = some page ↔ l.Candidate evictable page ∧
      ∀ q, q ≠ page → l.Candidate evictable q →
        goesBefore r.k (lastOf r.k (l.timesOf page)) (lastOf r.k (l.timesOf q)) = true := by
  rw [(h.timed hk).victim?_eq_some_iff]
  constructor
  · rintro ⟨hp, times, hfind, hall⟩
    obtain ⟨hne, rfl⟩ := h.find?_eq_some_iff.mp hfind
    exact ⟨⟨hne, hp⟩, fun q hq hc => hall q _ hq hc.2 (h.find?_eq_some_iff.mpr ⟨hc.1, rfl⟩)⟩
  · rintro ⟨hc, hall⟩
    refine ⟨hc.2, _, h.find?_eq_some_iff.mpr ⟨hc.1, rfl⟩, fun q other hq hev hfind => ?_⟩
    obtain ⟨hne, rfl⟩ := h.find?_eq_some_iff.mp hfind
    exact hall q hq ⟨hne, hev⟩

/-- The page to give up is the victim of the trace. -/
theorem Keeps.victim?_iff_victim {r : Replacer} {l : AccessTrace} (h : r.Keeps l) (hk : 0 < r.k)
    {evictable : PageId → Bool} {page : PageId} :
    r.victim? evictable = some page ↔ l.Victim r.k evictable page := by
  rw [h.victim?_iff_goesBefore hk]
  constructor
  · rintro ⟨hc, hall⟩
    have hspec : ∀ q, q ≠ page → l.Candidate evictable q → _ :=
      fun q hq hcq => (goesBefore_lastOf hk hc.1 hcq.1).mp (hall q hq hcq)
    refine ⟨hc, ?_, ?_⟩
    · rintro ⟨q, hcq, hfew⟩
      have hp : (l.timesOf page).length < r.k := by
        by_cases he : q = page
        · rw [← he]
          exact hfew
        · rcases hspec q he hcq with hp | hp
          · exact hp.1
          · exact absurd hfew (Nat.not_lt_of_le hp.2.1)
      refine ⟨hp, fun q hcq hfew hq => ?_⟩
      rcases hspec q hq hcq with hb | hb
      · exact hb.2.resolve_left (Nat.not_le_of_lt hfew)
      · exact absurd hp (Nat.not_lt_of_le hb.1)
    · intro hmany q hcq hq
      rcases hspec q hq hcq with hb | hb
      · exact absurd hb.1 (Nat.not_lt_of_le (hmany page hc))
      · exact hb.2.2
  · rintro ⟨hc, hfew, hmany⟩
    refine ⟨hc, fun q hq hcq => (goesBefore_lastOf hk hc.1 hcq.1).mpr ?_⟩
    by_cases hex : ∃ q, l.Candidate evictable q ∧ (l.timesOf q).length < r.k
    · obtain ⟨hp, hall⟩ := hfew hex
      refine Or.inl ⟨hp, ?_⟩
      by_cases hfq : (l.timesOf q).length < r.k
      · exact Or.inr (hall q hcq hfq hq)
      · exact Or.inl (Nat.le_of_not_lt hfq)
    · have hall : ∀ q, l.Candidate evictable q → r.k ≤ (l.timesOf q).length :=
        fun q hcq => Nat.le_of_not_lt fun hlt => hex ⟨q, hcq, hlt⟩
      exact Or.inr ⟨hall page hc, hall q hcq, hmany hall q hcq hq⟩

theorem evict_snd (r : Replacer) (evictable : PageId → Bool) : (r.evict evictable).2 = r.victim? evictable := by
  unfold evict
  split <;> simp only [*]

theorem find?_evict (r : Replacer) (evictable : PageId → Bool) (page : PageId) :
    (r.evict evictable).1.history.find? page =
      if r.victim? evictable = some page then none else r.history.find? page := by
  unfold evict
  cases hv : r.victim? evictable with
  | none => rw [if_neg (by simp)]
  | some victim =>
    show (r.history.erase victim).find? page = _
    rw [Dict.find?_erase]
    simp

/-- Eviction against the full trace of accesses. It finds a page exactly when a tracked page may go, changes nothing if it
finds none, and otherwise gives up the victim of the trace, of which there is only one; the order of the entries has no
part in it, and no other page is forgotten. -/
theorem evict_exact (k : Nat) (uses : List Use) (evictable : PageId → Bool) :
    let r := (new k).run uses
    let l := (new k).trace uses
    (∀ page, page ∈ r.history.keys ↔ l.timesOf page ≠ []) ∧
    ((r.evict evictable).2 = none ↔ ∀ page ∈ r.history.keys, evictable page = false) ∧
    ((r.evict evictable).2 = none → (r.evict evictable).1 = r) ∧
    (∀ page, (r.evict evictable).2 = some page ↔ l.Victim (max k 1) evictable page) ∧
    (∀ p q, l.Victim (max k 1) evictable p → l.Victim (max k 1) evictable q → p = q) ∧
    (∀ d : Dict PageId (List Nat), (∀ page, d.find? page = r.history.find? page) →
      (Replacer.evict { r with history := d } evictable).2 = (r.evict evictable).2) ∧
    (r.evict evictable).1.k = r.k ∧ (r.evict evictable).1.clock = r.clock ∧
    ∀ page, (r.evict evictable).1.history.find? page =
      if (r.evict evictable).2 = some page then none else r.history.find? page := by
  intro r l
  obtain ⟨hkeeps, hk⟩ := keeps_run k uses
  have hpos : 0 < r.k := by
    rw [hk]
    omega
  have hvictim : ∀ page, (r.evict evictable).2 = some page ↔ l.Victim (max k 1) evictable page := by
    intro page
    rw [evict_snd, hkeeps.victim?_iff_victim hpos, hk]
  refine ⟨hkeeps.mem_keys, ?_, fun hn => ?_, hvictim, fun p q hp hq => ?_, fun d hd => ?_, ?_, ?_, fun page => ?_⟩
  · constructor
    · intro hn page hm
      refine Bool.eq_false_iff.mpr fun he => ?_
      have hsome := isSome_victim? hm he
      rw [← evict_snd, hn] at hsome
      cases hsome
    · intro hall
      refine Option.eq_none_iff_forall_ne_some.mpr fun page hs => ?_
      rw [evict_snd] at hs
      obtain ⟨he, hm⟩ := victim?_eq_some hs
      rw [hall page hm] at he
      cases he
  · rw [evict_snd] at hn
    unfold evict
    rw [hn]
  · have hsame := ((hvictim p).mpr hp).symm.trans ((hvictim q).mpr hq)
    exact Option.some.inj hsame
  · rw [evict_snd, evict_snd]
    exact (hkeeps.timed hpos).victim?_congr hd evictable
  · unfold evict
    split <;> rfl
  · unfold evict
    split <;> rfl
  · rw [evict_snd]
    exact find?_evict r evictable page

end Replacer

end RowStore
