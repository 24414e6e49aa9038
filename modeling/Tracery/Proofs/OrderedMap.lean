import Mathlib.Data.List.Basic
import Mathlib.Data.List.Induction
import Mathlib.Data.List.Nodup
import Tracery.OrderedMap

/-! What is left of entries that are inserted one after the other. -/

namespace Tracery.OrderedMap

variable {β : Type}

/-- Entries with every key once: where it comes first, with the value that comes
last. -/
def settled (entries : List (String × β)) : List (String × β) :=
  (entries.map Prod.fst).eraseDups.filterMap fun key =>
    (entries.reverse.lookup key).map fun value => (key, value)

private theorem keys_put (key : String) (value : β)
    (entries : List (String × β)) :
    (put key value entries).map Prod.fst =
      if key ∈ entries.map Prod.fst then entries.map Prod.fst
      else entries.map Prod.fst ++ [key] := by
  induction entries with
  | nil => simp [put]
  | cons entry rest ih =>
      by_cases here : entry.1 = key
      · simp [put, here]
      · have elsewhere : key ≠ entry.1 := fun same => here same.symm
        by_cases later : key ∈ rest.map Prod.fst
        · simp only [put, here, if_false, List.map_cons, ih, later, if_true,
            List.mem_cons, or_true]
        · simp only [put, here, if_false, List.map_cons, ih, later,
            List.mem_cons, elsewhere, or_self, List.cons_append]

theorem keys_insert (m : OrderedMap β) (key : String) (value : β) :
    (m.insert key value).keys =
      if key ∈ m.keys then m.keys else m.keys ++ [key] :=
  keys_put key value m.entries

theorem ofList_append (entries others : List (String × β)) :
    ofList (entries ++ others) = (ofList entries).insertAll others :=
  insertAll_append empty entries others

theorem ofList_concat (entries : List (String × β)) (entry : String × β) :
    ofList (entries ++ [entry]) = (ofList entries).insert entry.1 entry.2 :=
  ofList_append entries [entry]

theorem keys_ofList (entries : List (String × β)) :
    (ofList entries).keys = (entries.map Prod.fst).eraseDups := by
  induction entries using List.reverseRecOn with
  | nil => rfl
  | append_singleton entries entry ih =>
      rw [ofList_concat, keys_insert, ih, List.map_append, List.eraseDups_append]
      by_cases again : entry.1 ∈ entries.map Prod.fst
      · simp [again, List.removeAll]
      · simp [again, List.removeAll, List.eraseDups_cons]

theorem get?_insertAll (m : OrderedMap β) (entries : List (String × β)) (key : String) :
    (m.insertAll entries).get? key = (entries.reverse.lookup key).or (m.get? key) := by
  induction entries using List.reverseRecOn with
  | nil => rfl
  | append_singleton entries entry ih =>
      rw [insertAll_append, insertAll_cons, insertAll_nil, get?_insert, ih,
        List.reverse_append, List.reverse_singleton, List.singleton_append, List.lookup_cons]
      by_cases same : key = entry.1
      · simp [same]
      · have different : (key == entry.1) = false := beq_eq_false_iff_ne.mpr same
        simp [same, different]

theorem get?_ofList (entries : List (String × β)) (key : String) :
    (ofList entries).get? key = entries.reverse.lookup key := by
  rw [ofList, get?_insertAll, get?_empty, Option.or_none]

private theorem lookup_of_mem {entries : List (String × β)}
    (nodup : (entries.map Prod.fst).Nodup) {entry : String × β}
    (member : entry ∈ entries) : entries.lookup entry.1 = some entry.2 := by
  induction entries with
  | nil => simp at member
  | cons first rest ih =>
      obtain ⟨fresh, restNodup⟩ := List.nodup_cons.mp nodup
      cases member with
      | head => exact List.lookup_cons_self
      | tail _ later =>
          have elsewhere : (entry.1 == first.1) = false := by
            rw [beq_eq_false_iff_ne]
            intro same
            exact fresh (same ▸ List.mem_map_of_mem later)
          rw [List.lookup_cons, elsewhere]
          exact ih restNodup later

theorem get?_of_mem {m : OrderedMap β} {entry : String × β}
    (member : entry ∈ m.entries) : m.get? entry.1 = some entry.2 :=
  lookup_of_mem m.nodup member

theorem entries_eq (m : OrderedMap β) :
    m.entries = m.keys.filterMap fun key =>
      (m.get? key).map fun value => (key, value) := by
  rw [keys, List.filterMap_map]
  have each : ∀ entry ∈ m.entries,
      ((fun key => (m.get? key).map fun value => (key, value)) ∘ Prod.fst) entry =
        some entry := by
    intro entry member
    simp [get?_of_mem member]
  rw [List.filterMap_congr each, List.filterMap_some]

theorem eq_of_keys_of_get? {m n : OrderedMap β} (keys : m.keys = n.keys)
    (known : ∀ key, m.get? key = n.get? key) : m = n := by
  apply ext
  rw [entries_eq, entries_eq, keys]
  simp only [known]

theorem entries_ofList (entries : List (String × β)) :
    (ofList entries).entries = settled entries := by
  rw [entries_eq, keys_ofList]
  simp only [get?_ofList]
  rfl

theorem mem_of_mem_ofList {entries : List (String × β)} {entry : String × β}
    (member : entry ∈ (ofList entries).entries) : entry ∈ entries := by
  have given := get?_of_mem member
  rw [get?_ofList] at given
  obtain ⟨before, after, split, -⟩ := List.lookup_eq_some_iff.mp given
  rw [← List.mem_reverse, split]
  simp

private theorem put_of_fresh {key : String} {entries : List (String × β)}
    (fresh : key ∉ entries.map Prod.fst) (value : β) :
    put key value entries = entries ++ [(key, value)] := by
  induction entries with
  | nil => rfl
  | cons entry rest ih =>
      simp only [List.map_cons, List.mem_cons, not_or] at fresh
      rw [put, if_neg (Ne.symm fresh.1), ih fresh.2, List.cons_append]

theorem entries_insertAll_of_nodup (m : OrderedMap β) (entries : List (String × β))
    (nodup : ((m.entries ++ entries).map Prod.fst).Nodup) :
    (m.insertAll entries).entries = m.entries ++ entries := by
  induction entries generalizing m with
  | nil => simp
  | cons entry rest ih =>
      have fresh : entry.1 ∉ m.entries.map Prod.fst := by
        rw [List.map_append, List.nodup_append] at nodup
        intro member
        exact nodup.2.2 _ member _ (by simp) rfl
      have placed : (m.insert entry.1 entry.2).entries = m.entries ++ [entry] :=
        put_of_fresh fresh entry.2
      have whole : (m.insert entry.1 entry.2).entries ++ rest = m.entries ++ entry :: rest := by
        rw [placed, List.append_assoc, List.singleton_append]
      rw [insertAll_cons, ih _ (whole ▸ nodup), whole]

theorem ofList_entries (m : OrderedMap β) : ofList m.entries = m :=
  ext (entries_insertAll_of_nodup empty m.entries m.nodup)

theorem get?_eq_none_iff {m : OrderedMap β} {key : String} :
    m.get? key = none ↔ key ∉ m.keys := by
  rw [get?, List.lookup_eq_none_iff, keys, List.mem_map]
  constructor
  · rintro different ⟨entry, member, rfl⟩
    simpa using different entry member
  · intro absent entry member
    simpa using fun same => absent ⟨entry, member, same.symm⟩

theorem mem_entries_iff {m : OrderedMap β} {entry : String × β} :
    entry ∈ m.entries ↔ m.get? entry.1 = some entry.2 := by
  constructor
  · exact get?_of_mem
  · intro known
    obtain ⟨before, after, split, -⟩ := List.lookup_eq_some_iff.mp known
    rw [split]
    simp

theorem mem_values_iff {m : OrderedMap β} {value : β} :
    value ∈ m.values ↔ ∃ key, m.get? key = some value := by
  rw [values, List.mem_map]
  constructor
  · rintro ⟨entry, member, rfl⟩
    exact ⟨entry.1, mem_entries_iff.mp member⟩
  · rintro ⟨key, known⟩
    exact ⟨(key, value), mem_entries_iff.mpr known, rfl⟩

theorem nodup_entries (m : OrderedMap β) : m.entries.Nodup :=
  List.Nodup.of_map Prod.fst m.nodup

/-- Maps have the same entries, in whatever order, if look-ups do not tell them apart. -/
theorem perm_iff_get?_eq {m n : OrderedMap β} :
    m.entries.Perm n.entries ↔ ∀ key, m.get? key = n.get? key := by
  rw [List.perm_ext_iff_of_nodup m.nodup_entries n.nodup_entries]
  simp only [mem_entries_iff]
  constructor
  · intro same key
    exact Option.ext fun value => same (key, value)
  · intro same entry
    rw [same]

theorem get?_of_perm_append {m base : OrderedMap β} {added : List (String × β)}
    (perm : m.entries.Perm (base.entries ++ added)) (key : String) :
    m.get? key = (base.insertAll added).get? key := by
  have nodup : ((base.entries ++ added).map Prod.fst).Nodup :=
    (perm.map Prod.fst).nodup_iff.mp m.nodup
  rw [← base.entries_insertAll_of_nodup added nodup] at perm
  exact perm_iff_get?_eq.mp perm key

theorem get?_merge (m extra : OrderedMap β) (key : String) :
    (m.merge extra).get? key = (extra.get? key).or (m.get? key) := by
  have last : extra.entries.reverse.lookup key = extra.get? key := by
    rw [← get?_ofList, ofList_entries]
  rw [merge, get?_insertAll, last]

private theorem put_put (key : String) (value second : β) (entries : List (String × β)) :
    put key second (put key value entries) = put key second entries := by
  induction entries with
  | nil => simp [put]
  | cons entry rest ih =>
      by_cases here : entry.1 = key
      · simp [put, here]
      · simp [put, here, ih]

theorem insert_insert (m : OrderedMap β) (key : String) (value second : β) :
    (m.insert key value).insert key second = m.insert key second :=
  ext (put_put key value second m.entries)

theorem perm_insert_comm {key other : String} (different : key ≠ other) (m : OrderedMap β)
    (value second : β) :
    ((m.insert key value).insert other second).entries.Perm
      ((m.insert other second).insert key value).entries := by
  apply perm_iff_get?_eq.mpr
  intro name
  simp only [get?_insert]
  split
  next same => rw [if_neg fun again => different (again.symm.trans same)]
  next => rfl

theorem eraseAll_of_absent {m : OrderedMap β} {keys : List String}
    (absent : ∀ key ∈ keys, m.get? key = none) : m.eraseAll keys = m := by
  apply ext
  apply List.filter_eq_self.mpr
  intro entry member
  have known : entry.1 ∈ m.keys := List.mem_map_of_mem member
  simpa using fun listed => get?_eq_none_iff.mp (absent entry.1 listed) known

theorem mapValues_of_fixed {m : OrderedMap β} {f : β → β}
    (fixed : ∀ value ∈ m.values, f value = value) : m.mapValues f = m := by
  apply ext
  conv_rhs => rw [← List.map_id m.entries]
  apply List.map_congr_left
  intro entry member
  rw [fixed entry.2 (List.mem_map_of_mem member)]
  rfl

private theorem put_map {γ : Type} (f : β → γ) (key : String) (value : β)
    (entries : List (String × β)) :
    put key (f value) (entries.map fun entry => (entry.1, f entry.2)) =
      (put key value entries).map fun entry => (entry.1, f entry.2) := by
  induction entries with
  | nil => rfl
  | cons entry rest ih =>
      by_cases here : entry.1 = key
      · simp [put, here]
      · simp [put, here, ih]

theorem mapValues_mapValues {γ δ : Type} (f : β → γ) (g : γ → δ) (m : OrderedMap β) :
    (m.mapValues f).mapValues g = m.mapValues (g ∘ f) :=
  ext (List.map_map ..)

theorem mapValues_insert {γ : Type} (f : β → γ) (m : OrderedMap β) (key : String) (value : β) :
    (m.insert key value).mapValues f = (m.mapValues f).insert key (f value) :=
  ext (put_map f key value m.entries).symm

theorem ofList_map {γ : Type} (f : β → γ) (entries : List (String × β)) :
    ofList (entries.map fun entry => (entry.1, f entry.2)) = (ofList entries).mapValues f := by
  induction entries using List.reverseRecOn with
  | nil => rfl
  | append_singleton entries entry ih =>
      rw [List.map_append, List.map_singleton, ofList_concat, ofList_concat, ih, mapValues_insert]

theorem mapValues_eq_iff {γ : Type} {f g : β → γ} {m : OrderedMap β} :
    m.mapValues f = m.mapValues g ↔ ∀ value ∈ m.values, f value = g value := by
  have entries : m.mapValues f = m.mapValues g ↔
      (m.mapValues f).entries = (m.mapValues g).entries := ⟨congrArg _, ext⟩
  rw [entries, mapValues, mapValues, List.map_inj_left, values, List.forall_mem_map]
  simp

private theorem filter_put (keep : String → Bool) (key : String) (value : β)
    (entries : List (String × β)) :
    (put key value entries).filter (fun entry => keep entry.1) =
      if keep key then put key value (entries.filter fun entry => keep entry.1)
      else entries.filter fun entry => keep entry.1 := by
  induction entries with
  | nil => cases kept : keep key <;> simp [put, kept]
  | cons entry rest ih =>
      by_cases here : entry.1 = key
      · subst here
        cases kept : keep entry.1 <;> simp [put, kept]
      · cases keptFirst : keep entry.1 <;> cases kept : keep key <;>
          simp [put, here, keptFirst, kept, ih]

theorem restrict_insert (keep : String → Bool) (m : OrderedMap β) (key : String) (value : β) :
    (m.insert key value).restrict keep =
      if keep key then (m.restrict keep).insert key value else m.restrict keep := by
  apply ext
  refine (filter_put keep key value m.entries).trans ?_
  cases keep key <;> rfl

theorem restrict_insertAll (keep : String → Bool) (m : OrderedMap β)
    (entries : List (String × β)) :
    (m.insertAll entries).restrict keep =
      (m.restrict keep).insertAll (entries.filter fun entry => keep entry.1) := by
  induction entries generalizing m with
  | nil => rfl
  | cons entry rest ih =>
      rw [insertAll_cons, ih, restrict_insert]
      cases kept : keep entry.1 <;> simp [kept]

theorem restrict_merge (keep : String → Bool) (m extra : OrderedMap β) :
    (m.merge extra).restrict keep = (m.restrict keep).merge (extra.restrict keep) :=
  restrict_insertAll keep m extra.entries

theorem restrict_insert_of_dropped {keep : String → Bool} {key : String}
    (dropped : keep key = false) (m : OrderedMap β) (value : β) :
    (m.insert key value).restrict keep = m.restrict keep := by
  rw [restrict_insert, dropped]
  rfl

theorem restrict_insert_of_kept {keep : String → Bool} {key : String} (kept : keep key = true)
    (m : OrderedMap β) (value : β) :
    (m.insert key value).restrict keep = (m.restrict keep).insert key value := by
  rw [restrict_insert, if_pos kept]

theorem restrict_comm (keep others : String → Bool) (m : OrderedMap β) :
    (m.restrict others).restrict keep = (m.restrict keep).restrict others := by
  apply ext
  simp only [restrict, List.filter_filter, Bool.and_comm]

theorem restrict_restrict_of_imp {keep others : String → Bool}
    (within : ∀ key, keep key = true → others key = true) (m : OrderedMap β) :
    (m.restrict others).restrict keep = m.restrict keep := by
  apply ext
  refine List.filter_filter.trans (List.filter_congr ?_)
  intro entry _
  cases kept : keep entry.1 with
  | false => rfl
  | true => simp [within entry.1 kept]

theorem restrict_erase_of_dropped {keep : String → Bool} {key : String}
    (dropped : keep key = false) (m : OrderedMap β) :
    (m.erase key).restrict keep = m.restrict keep := by
  apply restrict_restrict_of_imp
  intro other kept
  have different : other ≠ key := by
    rintro rfl
    simp [dropped] at kept
  simpa using different

theorem restrict_eraseAll_of_dropped {keep : String → Bool} {keys : List String}
    (dropped : ∀ key ∈ keys, keep key = false) (m : OrderedMap β) :
    (m.eraseAll keys).restrict keep = m.restrict keep := by
  apply restrict_restrict_of_imp
  intro other kept
  have unlisted : other ∉ keys := by
    intro listed
    simp [dropped other listed] at kept
  simpa using unlisted

theorem restrict_mapValues {γ : Type} (f : β → γ) (keep : String → Bool) (m : OrderedMap β) :
    (m.mapValues f).restrict keep = (m.restrict keep).mapValues f :=
  ext List.filter_map

/-- An entry whose key does not come again stays ahead of all that is inserted later. -/
theorem entries_insertAll_of_ahead {m n : OrderedMap β} {first : String × β}
    (ahead : m.entries = first :: n.entries) {entries : List (String × β)}
    (fresh : first.1 ∉ entries.map Prod.fst) :
    (m.insertAll entries).entries = first :: (n.insertAll entries).entries := by
  induction entries generalizing m n with
  | nil => exact ahead
  | cons entry rest ih =>
      rw [List.map_cons, List.mem_cons, not_or] at fresh
      apply ih _ fresh.2
      rw [entries_insert, ahead, put, if_neg fresh.1]
      rfl

theorem entries_ofList_cons {first : String × β} {entries : List (String × β)}
    (fresh : first.1 ∉ entries.map Prod.fst) :
    (ofList (first :: entries)).entries = first :: (ofList entries).entries :=
  entries_insertAll_of_ahead (m := empty.insert first.1 first.2) rfl fresh

theorem keys_eraseAll (m : OrderedMap β) (keys : List String) :
    (m.eraseAll keys).keys = m.keys.removeAll keys := by
  rw [OrderedMap.keys, OrderedMap.keys, List.removeAll, List.filter_map]
  rfl

theorem eraseAll_append (m : OrderedMap β) (keys others : List String) :
    m.eraseAll (keys ++ others) = (m.eraseAll keys).eraseAll others := by
  apply ext
  refine (List.filter_congr ?_).trans List.filter_filter.symm
  intro entry _
  simp [Bool.and_comm]

theorem eraseAll_keys (m : OrderedMap β) : m.eraseAll m.keys = empty := by
  apply ext
  apply List.filter_eq_nil_iff.mpr
  intro entry member
  have known : entry.1 ∈ m.keys := List.mem_map_of_mem member
  simpa using known

theorem eraseAll_merge (m extra : OrderedMap β) (keys : List String) :
    (m.merge extra).eraseAll keys = (m.eraseAll keys).merge (extra.eraseAll keys) :=
  restrict_merge _ m extra

/-! A merge leaves the keys that are there in their places and puts the new ones behind them. -/

theorem merge_eq_ofList (m extra : OrderedMap β) :
    m.merge extra = ofList (m.entries ++ extra.entries) := by
  rw [ofList_append, ofList_entries, merge]

theorem entries_merge (m extra : OrderedMap β) :
    (m.merge extra).entries = settled (m.entries ++ extra.entries) := by
  rw [merge_eq_ofList, entries_ofList]

private theorem eraseDups_keys (m : OrderedMap β) : m.keys.eraseDups = m.keys := by
  rw [keys, ← keys_ofList, ofList_entries, keys]

theorem keys_merge (m extra : OrderedMap β) :
    (m.merge extra).keys = m.keys ++ (extra.eraseAll m.keys).keys := by
  rw [merge_eq_ofList, keys_ofList, List.map_append, List.eraseDups_append]
  change m.keys.eraseDups ++ (extra.keys.removeAll m.keys).eraseDups = _
  rw [← keys_eraseAll, eraseDups_keys, eraseDups_keys]

theorem merge_assoc (m extra last : OrderedMap β) :
    (m.merge extra).merge last = m.merge (extra.merge last) := by
  apply eq_of_keys_of_get?
  · -- A key of the last map comes behind if neither of the others has it, either way.
    rw [keys_merge, keys_merge, keys_merge, eraseAll_append, eraseAll_merge, keys_merge,
      List.append_assoc]
  · intro key
    simp only [get?_merge, Option.or_assoc]

end Tracery.OrderedMap
