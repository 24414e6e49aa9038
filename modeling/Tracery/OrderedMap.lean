namespace Tracery

/--
Entries in the order in which their keys came, no key twice. A key that comes again keeps its place
and takes the new value.
-/
structure OrderedMap (β : Type) where
  entries : List (String × β)
  nodup : (entries.map Prod.fst).Nodup := by simp

namespace OrderedMap

variable {β γ : Type}

theorem ext {m n : OrderedMap β} (h : m.entries = n.entries) : m = n := by
  cases m; cases n; cases h; rfl

def put (key : String) (value : β) : List (String × β) → List (String × β)
  | [] => [(key, value)]
  | entry :: rest =>
      if entry.1 = key then (key, value) :: rest else entry :: put key value rest

theorem mem_keys_put {key other : String} {value : β} {entries : List (String × β)} :
    other ∈ (put key value entries).map Prod.fst ↔ other = key ∨ other ∈ entries.map Prod.fst := by
  induction entries with
  | nil => simp [put]
  | cons entry rest ih =>
      by_cases h : entry.1 = key
      · subst h
        simp only [put, if_true, List.map_cons, List.mem_cons]
        exact ⟨fun m => m.elim Or.inl (fun m => .inr (.inr m)), fun m => m.elim Or.inl id⟩
      · simp only [put, h, if_false, List.map_cons, List.mem_cons, ih]
        exact ⟨fun m => m.elim (fun e => .inr (.inl e)) (fun m => m.imp id .inr),
          fun m => m.elim (fun e => .inr (.inl e)) (fun m => m.imp id .inr)⟩

theorem nodup_put {key : String} {value : β} {entries : List (String × β)}
    (h : (entries.map Prod.fst).Nodup) : ((put key value entries).map Prod.fst).Nodup := by
  induction entries with
  | nil => simp [put]
  | cons entry rest ih =>
      obtain ⟨fresh, rest_nodup⟩ := List.nodup_cons.1 h
      by_cases same : entry.1 = key
      · subst same
        simpa [put] using h
      · simp only [put, same, if_false, List.map_cons, List.nodup_cons]
        exact ⟨fun m => (mem_keys_put.1 m).elim same fresh, ih rest_nodup⟩

def empty : OrderedMap β := ⟨[], by simp⟩

instance : Inhabited (OrderedMap β) := ⟨empty⟩

def keys (m : OrderedMap β) : List String := m.entries.map Prod.fst

def values (m : OrderedMap β) : List β := m.entries.map Prod.snd

def get? (m : OrderedMap β) (key : String) : Option β := m.entries.lookup key

def insert (m : OrderedMap β) (key : String) (value : β) : OrderedMap β :=
  ⟨put key value m.entries, nodup_put m.nodup⟩

def insertAll (m : OrderedMap β) (entries : List (String × β)) : OrderedMap β :=
  entries.foldl (fun m entry => m.insert entry.1 entry.2) m

def ofList (entries : List (String × β)) : OrderedMap β := empty.insertAll entries

def merge (m extra : OrderedMap β) : OrderedMap β := m.insertAll extra.entries

def restrict (keep : String → Bool) (m : OrderedMap β) : OrderedMap β :=
  ⟨m.entries.filter (fun entry => keep entry.1),
    m.nodup.sublist ((List.filter_sublist).map Prod.fst)⟩

def erase (m : OrderedMap β) (key : String) : OrderedMap β := m.restrict (· != key)

def eraseAll (m : OrderedMap β) (keys : List String) : OrderedMap β :=
  m.restrict (fun key => !keys.contains key)

def mapValues (f : β → γ) (m : OrderedMap β) : OrderedMap γ :=
  ⟨m.entries.map (fun entry => (entry.1, f entry.2)), by
    simpa [List.map_map, Function.comp_def] using m.nodup⟩

/-- Equal as maps: the same keys with equal values, in whatever order. -/
def sameAs [BEq β] (m n : OrderedMap β) : Bool :=
  m.entries.length == n.entries.length &&
    m.entries.all fun entry => (n.get? entry.1).any (entry.2 == ·)

@[simp] theorem entries_insert (m : OrderedMap β) (key : String) (value : β) :
    (m.insert key value).entries = put key value m.entries := rfl

@[simp] theorem mem_keys_insert {m : OrderedMap β} {key other : String} {value : β} :
    other ∈ (m.insert key value).keys ↔ other = key ∨ other ∈ m.keys := mem_keys_put

theorem lookup_put (key other : String) (value : β) (entries : List (String × β)) :
    (put key value entries).lookup other =
      if other = key then some value else entries.lookup other := by
  induction entries with
  | nil => by_cases h : other = key <;> simp [put, h]
  | cons entry rest ih =>
      obtain ⟨k, v⟩ := entry
      by_cases ho : other = k
      · subst ho
        by_cases h : other = key <;> simp [put, h]
      · have skip : (other == k) = false := by simpa using ho
        by_cases h : k = key
        · subst h
          simp [put, List.lookup_cons, skip, ho]
        · simp [put, h, List.lookup_cons, skip, ih]

@[simp] theorem get?_insert (m : OrderedMap β) (key other : String) (value : β) :
    (m.insert key value).get? other = if other = key then some value else m.get? other :=
  lookup_put key other value m.entries

@[simp] theorem get?_empty (key : String) : (empty : OrderedMap β).get? key = none := rfl

@[simp] theorem insertAll_nil (m : OrderedMap β) : m.insertAll [] = m := rfl

@[simp] theorem insertAll_cons (m : OrderedMap β) (entry : String × β)
    (entries : List (String × β)) :
    m.insertAll (entry :: entries) = (m.insert entry.1 entry.2).insertAll entries := rfl

theorem insertAll_append (m : OrderedMap β) (entries others : List (String × β)) :
    m.insertAll (entries ++ others) = (m.insertAll entries).insertAll others :=
  List.foldl_append

theorem lookup_filter (keep : String → Bool) (key : String) (entries : List (String × β)) :
    (entries.filter fun entry => keep entry.1).lookup key =
      if keep key then entries.lookup key else none := by
  induction entries with
  | nil => simp
  | cons entry rest ih =>
      obtain ⟨k, v⟩ := entry
      by_cases same : key = k
      · subst same
        by_cases kept : keep key <;> simp [kept, ih]
      · have skip : (key == k) = false := by simpa using same
        by_cases kept : keep k <;> simp [kept, List.lookup_cons, skip, ih]

@[simp] theorem get?_restrict (keep : String → Bool) (m : OrderedMap β) (key : String) :
    (m.restrict keep).get? key = if keep key then m.get? key else none :=
  lookup_filter keep key m.entries

@[simp] theorem get?_erase (m : OrderedMap β) (key other : String) :
    (m.erase key).get? other = if other = key then none else m.get? other := by
  by_cases h : other = key <;> simp [erase, h]

@[simp] theorem get?_eraseAll (m : OrderedMap β) (keys : List String) (key : String) :
    (m.eraseAll keys).get? key = if key ∈ keys then none else m.get? key := by
  by_cases h : key ∈ keys <;> simp [eraseAll, h]

theorem lookup_map (f : β → γ) (key : String) (entries : List (String × β)) :
    (entries.map fun entry => (entry.1, f entry.2)).lookup key = (entries.lookup key).map f := by
  induction entries with
  | nil => rfl
  | cons entry rest ih =>
      obtain ⟨k, v⟩ := entry
      by_cases same : key = k
      · subst same
        simp
      · have skip : (key == k) = false := by simpa using same
        simp [List.lookup_cons, skip, ih]

@[simp] theorem get?_mapValues (f : β → γ) (m : OrderedMap β) (key : String) :
    (m.mapValues f).get? key = (m.get? key).map f :=
  lookup_map f key m.entries

@[simp] theorem keys_mapValues (f : β → γ) (m : OrderedMap β) : (m.mapValues f).keys = m.keys := by
  simp [keys, mapValues]

end OrderedMap
end Tracery
