/-!
Finite maps that remember in which order their keys first arrived. Putting a key again changes its value
and keeps its place.
-/

namespace ThreadLocal

abbrev Table (κ ν : Type) := List (κ × ν)

namespace Table

variable {κ ν : Type} [DecidableEq κ]

def get? : Table κ ν → κ → Option ν
  | [], _ => none
  | (k, v) :: rest, key => if k = key then some v else get? rest key

def put : Table κ ν → κ → ν → Table κ ν
  | [], key, value => [(key, value)]
  | (k, v) :: rest, key, value => if k = key then (k, value) :: rest else (k, v) :: put rest key value

def erase (t : Table κ ν) (key : κ) : Table κ ν :=
  t.filter fun e => e.1 ≠ key

def keys (t : Table κ ν) : List κ :=
  t.map Prod.fst

/-- Changes the value at `key`, which is `fresh` if there is none yet. -/
def alter (t : Table κ ν) (key : κ) (fresh : ν) (f : ν → ν) : Table κ ν :=
  put t key (f ((get? t key).getD fresh))

/-- The last value given for a key counts, at the place of the first. -/
def ofList (entries : List (κ × ν)) : Table κ ν :=
  entries.foldl (fun t e => put t e.1 e.2) []

@[simp] theorem get?_nil (key : κ) : get? ([] : Table κ ν) key = none := rfl

theorem get?_cons (k : κ) (v : ν) (rest : Table κ ν) (key : κ) :
    get? ((k, v) :: rest) key = if k = key then some v else get? rest key := rfl

@[simp] theorem put_nil (key : κ) (value : ν) : put [] key value = [(key, value)] := rfl

theorem put_cons (k : κ) (v : ν) (rest : Table κ ν) (key : κ) (value : ν) :
    put ((k, v) :: rest) key value = if k = key then (k, value) :: rest else (k, v) :: put rest key value := rfl

theorem get?_put (t : Table κ ν) (key other : κ) (value : ν) :
    get? (put t key value) other = if key = other then some value else get? t other := by
  induction t with
  | nil => simp [get?_cons]
  | cons e rest ih =>
    obtain ⟨k, v⟩ := e
    by_cases hk : k = key
    · subst hk
      simp only [put_cons, if_true, get?_cons]
      split <;> rfl
    · simp only [put_cons, hk, if_false, get?_cons, ih]
      by_cases ho : k = other
      · subst ho
        have hk' : ¬ key = k := fun h => hk h.symm
        simp [hk']
      · simp [ho]

theorem keys_put (t : Table κ ν) (key : κ) (value : ν) :
    keys (put t key value) = if key ∈ keys t then keys t else keys t ++ [key] := by
  induction t with
  | nil => simp [keys]
  | cons e rest ih =>
    obtain ⟨k, v⟩ := e
    by_cases hk : k = key
    · simp [put_cons, keys, hk]
    · have hk' : ¬ key = k := fun h => hk h.symm
      simp only [keys] at ih
      simp only [put_cons, hk, if_false, keys, List.map_cons, List.mem_cons, hk', false_or, ih]
      by_cases h : key ∈ List.map Prod.fst rest <;> simp [h]

theorem get?_eq_none_iff {t : Table κ ν} {key : κ} : get? t key = none ↔ key ∉ keys t := by
  induction t with
  | nil => simp [keys]
  | cons e rest ih =>
    obtain ⟨k, v⟩ := e
    simp only [keys] at ih
    by_cases hk : k = key
    · simp [get?_cons, keys, hk]
    · simp [get?_cons, keys, hk, Ne.symm hk, ih]

theorem eq_nil_of_get? {t : Table κ ν} (h : ∀ key, get? t key = none) : t = [] := by
  cases t with
  | nil => rfl
  | cons e rest =>
    have he := get?_eq_none_iff.mp (h e.1)
    exact absurd (List.mem_map.mpr ⟨e, List.mem_cons_self, rfl⟩) he

theorem mem_of_get? {t : Table κ ν} {key : κ} {value : ν} (h : get? t key = some value) :
    (key, value) ∈ t := by
  induction t with
  | nil => simp at h
  | cons e rest ih =>
    obtain ⟨k, v⟩ := e
    by_cases hk : k = key
    · have hv : v = value := by simpa [get?_cons, hk] using h
      simp [hk, hv]
    · exact List.mem_cons_of_mem _ (ih (by simpa [get?_cons, hk] using h))

/-- In a table without repeated keys an entry is what is found under its key. -/
theorem get?_of_mem {t : Table κ ν} (distinct : (keys t).Nodup) {key : κ} {value : ν} (h : (key, value) ∈ t) :
    get? t key = some value := by
  induction t with
  | nil => simp at h
  | cons e rest ih =>
    obtain ⟨k, v⟩ := e
    obtain ⟨hfresh, hrest⟩ := List.nodup_cons.mp distinct
    rcases List.mem_cons.mp h with he | hm
    · obtain ⟨rfl, rfl⟩ := Prod.mk.inj he
      simp [get?_cons]
    · have hne : k ≠ key := by
        intro he
        exact hfresh (he ▸ List.mem_map.mpr ⟨_, hm, rfl⟩)
      simpa [get?_cons, hne] using ih hrest hm

theorem nodup_keys_put {t : Table κ ν} (h : (keys t).Nodup) (key : κ) (value : ν) :
    (keys (put t key value)).Nodup := by
  rw [keys_put]
  split
  next => exact h
  next hn =>
    refine List.nodup_append.mpr ⟨h, by simp, ?_⟩
    intro a ha b hb he
    have hb' : b = key := by simpa using hb
    exact hn (hb' ▸ he ▸ ha)

theorem get?_alter (t : Table κ ν) (key other : κ) (fresh : ν) (f : ν → ν) :
    get? (alter t key fresh f) other =
      if key = other then some (f ((get? t key).getD fresh)) else get? t other :=
  get?_put t key other _

theorem keys_alter (t : Table κ ν) (key : κ) (fresh : ν) (f : ν → ν) :
    keys (alter t key fresh f) = if key ∈ keys t then keys t else keys t ++ [key] :=
  keys_put t key _

theorem mem_keys_alter {t : Table κ ν} {key other : κ} {fresh : ν} {f : ν → ν} :
    other ∈ keys (alter t key fresh f) ↔ other ∈ keys t ∨ other = key := by
  rw [keys_alter]
  split
  next h =>
    constructor
    · exact Or.inl
    · rintro (h' | rfl)
      · exact h'
      · exact h
  next => simp

theorem get?_map {μ : Type} (t : Table κ ν) (f : κ → ν → μ) (key : κ) :
    get? (t.map fun e => (e.1, f e.1 e.2)) key = (get? t key).map (f key) := by
  induction t with
  | nil => rfl
  | cons e rest ih =>
    obtain ⟨k, v⟩ := e
    by_cases hk : k = key
    · simp [get?_cons, hk]
    · simpa [get?_cons, hk] using ih

/-- Putting a value under a key that is there changes no other entry. -/
theorem length_put_of_mem {t : Table κ ν} {key : κ} (h : key ∈ keys t) (value : ν) :
    (put t key value).length = t.length := by
  have hk := congrArg List.length (keys_put t key value)
  rw [if_pos h] at hk
  simpa [keys] using hk

theorem put_of_not_mem {t : Table κ ν} {key : κ} (h : key ∉ keys t) (value : ν) :
    put t key value = t ++ [(key, value)] := by
  induction t with
  | nil => rfl
  | cons e rest ih =>
    obtain ⟨k, v⟩ := e
    simp only [keys, List.map_cons, List.mem_cons, not_or] at h
    simp [put_cons, Ne.symm h.1, ih h.2]

theorem foldl_put {t entries : Table κ ν} (distinct : (keys (t ++ entries)).Nodup) :
    entries.foldl (fun t e => put t e.1 e.2) t = t ++ entries := by
  induction entries generalizing t with
  | nil => simp
  | cons e rest ih =>
    have hfresh : e.1 ∉ keys t := by
      intro hm
      unfold keys at distinct hm
      rw [List.map_append, List.nodup_append] at distinct
      exact distinct.2.2 _ hm e.1 (by simp) rfl
    rw [List.foldl_cons, put_of_not_mem hfresh]
    have hnext : (keys ((t ++ [e]) ++ rest)).Nodup := by simpa using distinct
    simpa using ih hnext

/-- Entries with distinct keys are a table as they stand. -/
theorem ofList_of_nodup {entries : Table κ ν} (distinct : (keys entries).Nodup) : ofList entries = entries := by
  have h := @foldl_put κ ν _ [] entries distinct
  rwa [List.nil_append] at h

end Table

/-- The distinct members of a list, in the order in which they first occur. -/
def distinct {α : Type} [DecidableEq α] : List α → List α
  | [] => []
  | x :: rest => x :: (distinct rest).filter (· ≠ x)

end ThreadLocal
