/-!
# Dictionaries

Finite maps kept as a list of entries whose keys are distinct. Distinctness is part of the type, so the
number of entries is the number of keys and no statement about a dictionary needs it as a hypothesis.
The list order is the order of first insertion; nothing in the library depends on it except where a
pass over the entries says so.
-/

namespace RowStore

/-- A finite map from `κ` to `υ`. -/
structure Dict (κ υ : Type) where
  entries : List (κ × υ)
  distinct : (entries.map Prod.fst).Nodup
deriving DecidableEq

namespace Dict

variable {κ υ : Type}

def empty : Dict κ υ := ⟨[], List.nodup_nil⟩

instance : Inhabited (Dict κ υ) := ⟨empty⟩

def keys (d : Dict κ υ) : List κ := d.entries.map Prod.fst

def values (d : Dict κ υ) : List υ := d.entries.map Prod.snd

def size (d : Dict κ υ) : Nat := d.entries.length

variable [DecidableEq κ]

def find? (d : Dict κ υ) (k : κ) : Option υ :=
  (d.entries.find? fun entry => entry.1 = k).map Prod.snd

def contains (d : Dict κ υ) (k : κ) : Bool := (d.find? k).isSome

/-- Entries with the value under `k` replaced in place, or added at the end. -/
def upsert (k : κ) (v : υ) : List (κ × υ) → List (κ × υ)
  | [] => [(k, v)]
  | entry :: rest => if entry.1 = k then (k, v) :: rest else entry :: upsert k v rest

theorem keys_upsert (k : κ) (v : υ) (entries : List (κ × υ)) :
    (upsert k v entries).map Prod.fst =
      if k ∈ entries.map Prod.fst then entries.map Prod.fst else entries.map Prod.fst ++ [k] := by
  induction entries with
  | nil => simp [upsert]
  | cons entry rest ih =>
    by_cases h : entry.1 = k
    · simp [upsert, h]
    · have h' : ¬ k = entry.1 := fun e => h e.symm
      by_cases hk : k ∈ rest.map Prod.fst
      · simp [upsert, h, h', ih, hk]
      · simp [upsert, h, h', ih, hk]

theorem upsert_distinct (k : κ) (v : υ) {entries : List (κ × υ)}
    (h : (entries.map Prod.fst).Nodup) : ((upsert k v entries).map Prod.fst).Nodup := by
  rw [keys_upsert]
  split
  · exact h
  · rename_i hk
    refine List.nodup_append.mpr ⟨h, by simp, ?_⟩
    intro a ha b hb
    rw [List.mem_singleton] at hb
    subst hb
    exact fun e => hk (e ▸ ha)

def insert (d : Dict κ υ) (k : κ) (v : υ) : Dict κ υ :=
  ⟨upsert k v d.entries, upsert_distinct k v d.distinct⟩

def erase (d : Dict κ υ) (k : κ) : Dict κ υ :=
  ⟨d.entries.filter fun entry => entry.1 ≠ k,
    d.distinct.sublist ((List.filter_sublist (p := _)).map Prod.fst)⟩

@[simp] theorem find?_empty (k : κ) : (empty : Dict κ υ).find? k = none := rfl

theorem find?_upsert (k : κ) (v : υ) (j : κ) (entries : List (κ × υ)) :
    ((upsert k v entries).find? fun entry => entry.1 = j).map Prod.snd =
      if k = j then some v else (entries.find? fun entry => entry.1 = j).map Prod.snd := by
  induction entries with
  | nil => by_cases h : k = j <;> simp [upsert, h]
  | cons entry rest ih => grind [upsert]

theorem find?_insert (d : Dict κ υ) (k : κ) (v : υ) (j : κ) :
    (d.insert k v).find? j = if k = j then some v else d.find? j :=
  find?_upsert k v j d.entries

theorem find?_erase (d : Dict κ υ) (k j : κ) :
    (d.erase k).find? j = if k = j then none else d.find? j := by
  simp only [find?, erase]
  induction d.entries with
  | nil => simp
  | cons entry rest ih => grind

theorem mem_keys_iff (d : Dict κ υ) (k : κ) : k ∈ d.keys ↔ (d.find? k).isSome := by
  unfold keys find?
  induction d.entries with
  | nil => simp
  | cons entry rest ih => grind

end Dict

end RowStore
