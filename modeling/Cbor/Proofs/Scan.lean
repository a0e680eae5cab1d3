import Cbor.Item.Map
import Cbor.Proofs.Table

/-!
# Tables answer as a scan of their entries does

- On lists: what `put` leaves in place (`getElem?_put`), what is found after it (`lookup_put`), and so what a list of
  pairs becomes when they are put in order: each key once, at its first occurrence (`keysOf_putAll`), with the value of
  its last (`lookup_putAll`).
- `Table.Reachable`: the tables that any history of operations leads to. All are coherent (`Reachable.coherent`).
- `Table.Scans`: look-up and insertion do what a scan of the entries does, whichever of the stored positions the index
  is asked about first. It holds of coherent tables under every hash, also one that does not tell keys apart
  (`Coherent.scans`).
-/

namespace Cbor

/-! ## Lists of entries -/

section Lists

variable {κ ν : Type}

/-- One list of entries comes from another by setting the value at a position. -/
structure SetsValue (i : Nat) (value : ν) (l l' : List (κ × ν)) : Prop where
  keys : keysOf l' = keysOf l
  value : (l'[i]?).map Prod.snd = some value
  others : ∀ j, j ≠ i → l'[j]? = l[j]?

theorem setsValue_modify {i : Nat} {l : List (κ × ν)} (hi : i < l.length) (value : ν) :
    SetsValue i value l (l.modify i fun e => (e.1, value)) where
  keys := by
    refine List.ext_getElem? fun j => ?_
    simp only [keysOf, List.getElem?_map, List.getElem?_modify]
    cases l[j]? with
    | none => rfl
    | some e => by_cases hij : i = j <;> simp [hij]
  value := by
    rw [List.getElem?_modify, List.getElem?_eq_getElem hi]
    simp
  others j hj := by
    rw [List.getElem?_modify]
    cases l[j]? with
    | none => rfl
    | some e => simp [hj.symm]

variable [DecidableEq κ]

/-- A key stands where a scan finds it. -/
theorem getElem?_idxOf {key : κ} {l : List κ} (h : key ∈ l) : l[l.idxOf key]? = some key := by
  have hl : l.idxOf key < l.length := List.idxOf_lt_length_iff.mpr h
  rw [List.getElem?_eq_getElem hl, List.getElem_idxOf hl]

/-- An equal key keeps its place, and only the value there is set. -/
theorem setsValue_put {key : κ} {value : ν} {l : List (κ × ν)} (hn : (keysOf l).Nodup) (hk : key ∈ keysOf l) :
    SetsValue ((keysOf l).idxOf key) value l (put key value l) := by
  have hl : (keysOf l).length = l.length := List.length_map _
  have hi : (keysOf l).idxOf key < l.length := by
    rw [← hl]
    exact List.idxOf_lt_length_iff.mpr hk
  rw [put_eq_modify hn (getElem?_idxOf hk)]
  exact setsValue_modify hi value

/-- The entry that is put stands where a scan for the key ends. -/
theorem getElem?_put (key : κ) (value : ν) : ∀ l : List (κ × ν),
    (put key value l)[(keysOf l).idxOf key]? = some (key, value)
  | [] => rfl
  | (k, v) :: l => by
    by_cases hk : k = key
    · simp [put, hk]
    · have hb : (k == key) = false := beq_eq_false_iff_ne.mpr hk
      rw [put, if_neg hk, keysOf_cons, List.idxOf_cons, hb]
      exact getElem?_put key value l

/-- Of two values put under a key, the later one counts. -/
theorem put_put (key : κ) (value value' : ν) : ∀ l : List (κ × ν),
    put key value' (put key value l) = put key value' l
  | [] => if_pos rfl
  | (k, v) :: l => by
    by_cases hk : k = key
    · rw [put, if_pos hk, put, if_pos hk, put, if_pos hk]
    · rw [put, if_neg hk, put, if_neg hk, put, if_neg hk, put_put key value value' l]

theorem lookup_cons_ite (k key : κ) (value : ν) (l : List (κ × ν)) :
    ((key, value) :: l).lookup k = if k = key then some value else l.lookup k := by
  rw [List.lookup_cons]
  by_cases hk : k = key
  · rw [if_pos hk, beq_iff_eq.mpr hk]
  · rw [if_neg hk, beq_eq_false_iff_ne.mpr hk]

theorem lookup_put (key : κ) (value : ν) (k : κ) : ∀ l : List (κ × ν),
    (put key value l).lookup k = if k = key then some value else l.lookup k
  | [] => lookup_cons_ite k key value []
  | (k', v) :: l => by
    rw [put]
    split
    · rename_i hk'
      subst hk'
      simp only [lookup_cons_ite]
      split <;> rfl
    · rename_i hk'
      simp only [lookup_cons_ite, lookup_put key value k l]
      by_cases hk : k = k'
      · subst hk
        rw [if_pos rfl, if_pos rfl, if_neg hk']
      · rw [if_neg hk, if_neg hk]

/-- Of the values that are set under a key one after the other, the last one counts. -/
theorem lookup_foldl {set : κ → ν → List (κ × ν) → List (κ × ν)} {k : κ}
    (hset : ∀ key value l, (set key value l).lookup k = if k = key then some value else l.lookup k) :
    ∀ pairs l : List (κ × ν),
      (pairs.foldl (fun l e => set e.1 e.2 l) l).lookup k = (pairs.reverse.lookup k).or (l.lookup k)
  | [], _ => rfl
  | (key, value) :: pairs, l => by
    have hs : List.lookup k [(key, value)] = if k = key then some value else none := lookup_cons_ite k key value []
    rw [List.foldl_cons, lookup_foldl hset pairs, hset, List.reverse_cons, List.lookup_append, Option.or_assoc, hs]
    split <;> rfl

theorem lookup_putAll (k : κ) (pairs l : List (κ × ν)) :
    (putAll l pairs).lookup k = (pairs.reverse.lookup k).or (l.lookup k) :=
  lookup_foldl (fun key value => lookup_put key value k) pairs l

/-- New keys are added in the order of their first occurrences. -/
theorem keysOf_putAll : ∀ pairs l : List (κ × ν),
    keysOf (putAll l pairs) = keysOf l ++ ((keysOf pairs).removeAll (keysOf l)).eraseDups
  | [], l => (List.append_nil _).symm
  | (key, value) :: pairs, l => by
    rw [putAll_cons, keysOf_putAll pairs, keysOf_put, keysOf_cons]
    by_cases hk : key ∈ keysOf l
    · have hr : (key :: keysOf pairs).removeAll (keysOf l) = (keysOf pairs).removeAll (keysOf l) := by
        simp [List.removeAll, hk]
      rw [if_pos hk, hr]
    · have hr : (key :: keysOf pairs).removeAll (keysOf l) = key :: (keysOf pairs).removeAll (keysOf l) := by
        simp [List.removeAll, hk]
      have hs : (keysOf pairs).removeAll (keysOf l ++ [key]) =
          ((keysOf pairs).removeAll (keysOf l)).filter fun k => !k == key := by
        rw [List.removeAll, List.removeAll, List.filter_filter]
        refine List.filter_congr fun k _ => ?_
        have hb : (k == key) = decide (k = key) := rfl
        simp [hb, Bool.and_comm]
      rw [if_neg hk, hr, hs, List.eraseDups_cons, List.append_assoc, List.singleton_append]

/-- Each key once, at its first occurrence. -/
theorem keysOf_putAll_nil (pairs : List (κ × ν)) : keysOf (putAll [] pairs) = (keysOf pairs).eraseDups := by
  have hr : (keysOf pairs).removeAll (keysOf ([] : List (κ × ν))) = keysOf pairs := by
    simp [List.removeAll]
  rw [keysOf_putAll, hr]
  rfl

/-- Each key with its last value. -/
theorem lookup_putAll_nil (k : κ) (pairs : List (κ × ν)) : (putAll [] pairs).lookup k = pairs.reverse.lookup k := by
  rw [lookup_putAll]
  exact Option.or_none

end Lists

namespace Table

variable {κ ν : Type} {hash : κ → UInt64} [DecidableEq κ]

/-! ## Histories -/

/-- The tables that operations lead to, one after the other in any order. -/
inductive Reachable : Table κ ν hash → Prop
  | empty : Reachable empty
  | ofList (pairs : List (κ × ν)) : Reachable (ofList pairs)
  | insert {t : Table κ ν hash} (key : κ) (value : ν) : Reachable t → Reachable (t.insert key value).2
  | replace {t : Table κ ν hash} {i : Nat} (value : ν) : Reachable t → i < t.size → Reachable (t.replace i value)
  | setIndefinite {t : Table κ ν hash} (indefinite : Bool) : Reachable t → Reachable (t.setIndefinite indefinite)
  /-- A copy holds the same entries, flag and index. -/
  | copy {t : Table κ ν hash} : Reachable t → Reachable ⟨t.entries, t.indefinite, t.index⟩

/-- Inserts pairs in order. -/
def insertAll (t : Table κ ν hash) (pairs : List (κ × ν)) : Table κ ν hash :=
  pairs.foldl (fun t e => (t.insert e.1 e.2).2) t

theorem Coherent.insertAll : ∀ (pairs : List (κ × ν)) {t : Table κ ν hash}, t.Coherent → (t.insertAll pairs).Coherent
  | [], _, h => h
  | e :: pairs, _, h => Coherent.insertAll pairs (h.insert e.1 e.2)

theorem Coherent.toList_insertAll : ∀ (pairs : List (κ × ν)) {t : Table κ ν hash}, t.Coherent →
    (t.insertAll pairs).toList = putAll t.toList pairs
  | [], _, _ => rfl
  | e :: pairs, _, h => by
    rw [putAll_cons, ← h.toList_insert]
    exact Coherent.toList_insertAll pairs (h.insert e.1 e.2)

theorem indefinite_insert (t : Table κ ν hash) (key : κ) (value : ν) :
    (t.insert key value).2.indefinite = t.indefinite := by
  unfold insert
  split <;> rfl

theorem indefinite_insertAll : ∀ (pairs : List (κ × ν)) (t : Table κ ν hash),
    (t.insertAll pairs).indefinite = t.indefinite
  | [], _ => rfl
  | e :: pairs, t => (indefinite_insertAll pairs (t.insert e.1 e.2).2).trans (indefinite_insert t e.1 e.2)

theorem coherent_ofList (pairs : List (κ × ν)) : (ofList pairs : Table κ ν hash).Coherent :=
  coherent_empty.insertAll pairs

/-- Every operation keeps the table coherent, and so does every history. -/
theorem Reachable.coherent {t : Table κ ν hash} (h : t.Reachable) : t.Coherent := by
  induction h with
  | empty => exact coherent_empty
  | ofList pairs => exact coherent_ofList pairs
  | insert key value _ ih => exact ih.insert key value
  | replace value _ _ ih => exact ih.replace _ value
  | setIndefinite _ _ ih => exact ⟨ih.nodup_keys, ih.nodup_index, ih.mem_index⟩
  | copy _ ih => exact ih

/-! ## Look-up and insertion by a scan -/

/-- A search among positions gives one that meets the condition, or nothing where none does. -/
def Finds (positions : List Nat) (condition : Nat → Prop) : Option Nat → Prop
  | some i => i ∈ positions ∧ condition i
  | none => ∀ i ∈ positions, ¬condition i

/-- The keys are distinct, the index holds each position once under the hash of its key and nowhere else, and what the
operations find through the index a scan of the entries finds too. -/
structure Scans (t : Table κ ν hash) : Prop where
  nodup_keys : (keysOf t.toList).Nodup
  count_index : ∀ h i, (t.index.getD h []).count i = if (t.keyAt? i).map hash = some h then 1 else 0
  /-- The key of every stored position is there to be hashed again, and has the hash that the position is under. -/
  hash_stored : ∀ h, ∀ i ∈ t.index.getD h [], (t.keyAt? i).map hash = some h
  /-- Any search among the positions stored under the hash of a key gives the place of the key. -/
  finds : ∀ key answer, Finds (t.index.getD (hash key) []) (t.keyAt? · = some key) answer →
    answer = (keysOf t.toList).idxOf? key
  position : ∀ key, t.position? key = (keysOf t.toList).idxOf? key
  get : ∀ key, t.get? key = t.toList.lookup key
  contains : ∀ key, t.contains key = decide (key ∈ keysOf t.toList)
  insert_position : ∀ key value, (t.insert key value).1 = (keysOf t.toList).idxOf key
  insert_entries : ∀ key value, (t.insert key value).2.toList = put key value t.toList

namespace Coherent

variable {t : Table κ ν hash}

/-- With distinct keys, a scan finds the only place where the key is. -/
theorem idxOf?_eq_some_iff (ht : t.Coherent) {key : κ} {i : Nat} :
    (keysOf t.toList).idxOf? key = some i ↔ (keysOf t.toList)[i]? = some key := by
  rw [List.idxOf?_eq_some_iff]
  constructor
  · rintro ⟨hi, hk, -⟩
    rw [List.getElem?_eq_getElem hi, hk]
  · intro h
    obtain ⟨hi, hk⟩ := List.getElem?_eq_some_iff.mp h
    refine ⟨hi, hk, fun j hj he => ?_⟩
    have hij : j = i := (List.getElem_inj ht.nodup_keys).mp (he.trans hk.symm)
    omega

theorem finds_eq (ht : t.Coherent) {key : κ} {answer : Option Nat}
    (h : Finds (t.index.getD (hash key) []) (t.keyAt? · = some key) answer) :
    answer = (keysOf t.toList).idxOf? key := by
  cases answer with
  | some i =>
    obtain ⟨-, hk⟩ := h
    rw [keyAt?_eq] at hk
    exact (ht.idxOf?_eq_some_iff.mpr hk).symm
  | none =>
    refine (List.idxOf?_eq_none_iff.mpr fun hm => ?_).symm
    obtain ⟨i, hi⟩ := List.mem_iff_getElem?.mp hm
    exact h i ((ht.mem_index _ i).mpr ⟨key, hi, rfl⟩) ((keyAt?_eq t i).trans hi)

theorem position?_eq_idxOf? (ht : t.Coherent) (key : κ) : t.position? key = (keysOf t.toList).idxOf? key := by
  refine Option.ext fun i => ?_
  rw [ht.position?_eq_some_iff, ht.idxOf?_eq_some_iff]

omit [DecidableEq κ] in
theorem count_index (ht : t.Coherent) (h : UInt64) (i : Nat) :
    (t.index.getD h []).count i = if (t.keyAt? i).map hash = some h then 1 else 0 := by
  rw [(ht.nodup_index h).count, keyAt?_eq]
  simp only [ht.mem_index, Option.map_eq_some_iff]

theorem get?_eq_lookup (ht : t.Coherent) (key : κ) : t.get? key = t.toList.lookup key := by
  rw [get?, ht.position?_eq_idxOf?]
  have hl : ∀ l : List (κ × ν), ((keysOf l).idxOf? key).bind (fun i => (l[i]?).map Prod.snd) = l.lookup key := by
    intro l
    induction l with
    | nil => rfl
    | cons e l ih =>
      rw [lookup_cons_ite, ← ih, keysOf_cons, List.idxOf?_cons]
      by_cases hk : key = e.1
      · simp [hk]
      · have hb : (e.1 == key) = false := beq_eq_false_iff_ne.mpr (Ne.symm hk)
        rw [if_neg hk, hb]
        cases (keysOf l).idxOf? key <;> rfl
  rw [← hl]
  simp only [toList, Array.getElem?_toList]

theorem contains_eq_decide (ht : t.Coherent) (key : κ) : t.contains key = decide (key ∈ keysOf t.toList) := by
  rw [contains]
  by_cases hk : key ∈ keysOf t.toList
  · have hs : t.position? key ≠ none := fun h => ht.position?_eq_none_iff.mp h hk
    rw [decide_eq_true hk]
    exact Option.isSome_iff_ne_none.mpr hs
  · rw [decide_eq_false hk, ht.position?_eq_none_iff.mpr hk]
    rfl

theorem insert_fst (ht : t.Coherent) (key : κ) (value : ν) :
    (t.insert key value).1 = (keysOf t.toList).idxOf key := by
  unfold Table.insert
  split
  · rename_i i hp
    have hi := ht.position?_eq_some_iff.mp hp
    obtain ⟨hl, -⟩ := List.getElem?_eq_some_iff.mp hi
    exact (List.getElem?_inj hl ht.nodup_keys).mp (hi.trans (getElem?_idxOf (List.mem_of_getElem? hi)).symm)
  · rename_i hp
    rw [List.idxOf_eq_length (ht.position?_eq_none_iff.mp hp), length_keysOf]

/-- **A coherent table answers as a scan of its entries does.** -/
theorem scans (ht : t.Coherent) : t.Scans where
  nodup_keys := ht.nodup_keys
  count_index := ht.count_index
  hash_stored h i hi := by
    rw [keyAt?_eq]
    exact Option.map_eq_some_iff.mpr ((ht.mem_index h i).mp hi)
  finds _ _ := ht.finds_eq
  position := ht.position?_eq_idxOf?
  get := ht.get?_eq_lookup
  contains := ht.contains_eq_decide
  insert_position := ht.insert_fst
  insert_entries := ht.toList_insert

end Coherent

omit [DecidableEq κ] in
theorem setsValue_replace {t : Table κ ν hash} {i : Nat} (hi : i < t.size) (value : ν) :
    SetsValue i value t.toList (t.replace i value).toList := by
  rw [toList_replace]
  exact setsValue_modify hi value

/-! ## Maps of items -/

/-- **A map of items answers as a scan of its entries does, after any history and under any hash.** An inserted value
lands at the position that is given; inserting an equal key, or replacing, sets that one value and nothing else; and
the map of a list of pairs has each key once, in the order of first occurrences, with the value of its last. -/
theorem Reachable.scans_items {hash : Item → UInt64} {t : Table Item Item hash} (ht : t.Reachable) :
    t.Scans ∧
    (∀ key value, (t.insert key value).2.toList[(t.insert key value).1]? = some (key, value) ∧
      (key ∈ keysOf t.toList →
        SetsValue (t.insert key value).1 value t.toList (t.insert key value).2.toList)) ∧
    (∀ i value, i < t.size → SetsValue i value t.toList (t.replace i value).toList) ∧
    ∀ pairs, keysOf (Table.ofList pairs : Table Item Item hash).toList = (keysOf pairs).eraseDups ∧
      ∀ key, (Table.ofList pairs : Table Item Item hash).get? key = pairs.reverse.lookup key := by
  have hc := ht.coherent
  refine ⟨hc.scans, fun key value => ?_, fun i value hi => setsValue_replace hi value, fun pairs => ⟨?_, fun key => ?_⟩⟩
  · rw [hc.insert_fst, hc.toList_insert]
    exact ⟨getElem?_put key value _, setsValue_put hc.nodup_keys⟩
  · rw [toList_ofList, keysOf_putAll_nil]
  · rw [(coherent_ofList pairs).get?_eq_lookup, toList_ofList, lookup_putAll_nil]

/-- A table whose keys, among them a float that is not a number and a map, all have the same hash. -/
def collided : Table Item Item (fun _ => 0) :=
  ((ofList [(.text "a", .null), (.half ⟨0x7E01⟩, .null), (.text "a", .bool true)]).insert
    (.map [(.unsigned 1, .null)] true) (.unsigned 3)).2.replace 1 .undefined

theorem scans_items_collided :
    collided.Reachable ∧ collided.Scans ∧ collided.get? (.half ⟨0x7E01⟩) = some .undefined ∧
      (collided.insert (.text "a") .null).1 = 0 ∧ (collided.insert (.half ⟨0x7E02⟩) .null).1 = 3 := by
  have hl : ((ofList [(.text "a", .null), (.half ⟨0x7E01⟩, .null), (.text "a", .bool true)] :
      Table Item Item (fun _ => 0)).insert (.map [(.unsigned 1, .null)] true) (.unsigned 3)).2.toList =
      [(.text "a", .bool true), (.half ⟨0x7E01⟩, .null), (.map [(.unsigned 1, .null)] true, .unsigned 3)] := by
    rw [(coherent_ofList _).toList_insert, toList_ofList]
    decide
  have hr : collided.Reachable := .replace _ (.insert _ _ (.ofList _)) (by rw [← length_keysOf, hl]; decide)
  have hl' : collided.toList = [(.text "a", .bool true), (.half ⟨0x7E01⟩, .undefined),
      (.map [(.unsigned 1, .null)] true, .unsigned 3)] := by
    rw [collided, toList_replace, hl]
    rfl
  obtain ⟨hs, -⟩ := hr.scans_items
  refine ⟨hr, hs, ?_, ?_, ?_⟩
  · rw [hs.get, hl']
    decide
  · rw [hs.insert_position, hl']
    decide
  · rw [hs.insert_position, hl']
    decide

end Table

end Cbor
