import Cbor.Table

/-!
# Tables are lists of entries with distinct keys

- `put` on lists: a new key goes to the end (`put_of_not_mem`), an equal one keeps its place (`put_eq_modify`); the
  keys stay distinct (`nodup_put`), and `putAll` puts pairs in order.
- `Table.Coherent`: the keys of a table are distinct, and its index holds each position exactly once, under the hash
  of the key there. It is all that look-up needs (`Table.Coherent.position?_eq_some_iff`), and every operation keeps
  it, whatever the hash.
- So inserting through the index is `put` on the entries (`Table.Coherent.toList_insert`, `Table.toList_ofList`).
-/

namespace Cbor

/-! ## Lists of entries -/

section Lists

variable {κ ν : Type}

/-- The keys of entries, in order. -/
def keysOf (l : List (κ × ν)) : List κ := l.map Prod.fst

@[simp] theorem keysOf_nil : keysOf ([] : List (κ × ν)) = [] := rfl

@[simp] theorem keysOf_cons (e : κ × ν) (l : List (κ × ν)) : keysOf (e :: l) = e.1 :: keysOf l := rfl

@[simp] theorem keysOf_append (l l' : List (κ × ν)) : keysOf (l ++ l') = keysOf l ++ keysOf l' := List.map_append

/-- The positions in a list with one more element. -/
theorem getElem?_snoc {l : List κ} {a k : κ} {i : Nat} :
    (l ++ [a])[i]? = some k ↔ l[i]? = some k ∨ i = l.length ∧ k = a := by
  rcases Nat.lt_trichotomy i l.length with h | rfl | h
  · rw [List.getElem?_append_left h]
    exact (or_iff_left fun hi => by omega).symm
  · simp [eq_comm]
  · rw [List.getElem?_eq_none (by simp; omega), List.getElem?_eq_none (by omega)]
    simp
    omega

variable [DecidableEq κ]

/-- Puts pairs in order. -/
def putAll (l pairs : List (κ × ν)) : List (κ × ν) := pairs.foldl (fun l e => put e.1 e.2 l) l

@[simp] theorem putAll_nil (l : List (κ × ν)) : putAll l [] = l := rfl

@[simp] theorem putAll_cons (l : List (κ × ν)) (e : κ × ν) (pairs : List (κ × ν)) :
    putAll l (e :: pairs) = putAll (put e.1 e.2 l) pairs := rfl

theorem put_of_not_mem {key : κ} {value : ν} : ∀ {l : List (κ × ν)}, key ∉ keysOf l →
    put key value l = l ++ [(key, value)]
  | [], _ => rfl
  | (k, v) :: l, h => by
    rw [keysOf_cons, List.mem_cons, not_or] at h
    rw [put, if_neg (Ne.symm h.1), put_of_not_mem h.2, List.cons_append]

/-- With distinct keys, the value is set at the place of the key. -/
theorem put_eq_modify {key : κ} {value : ν} : ∀ {l : List (κ × ν)} {i : Nat}, (keysOf l).Nodup →
    (keysOf l)[i]? = some key → put key value l = l.modify i fun e => (e.1, value)
  | [], _, _, h => by cases h
  | (k, v) :: l, 0, _, h => by
    rw [keysOf_cons, List.getElem?_cons_zero, Option.some_inj] at h
    rw [put, if_pos h]
    rfl
  | (k, v) :: l, i + 1, hn, h => by
    rw [keysOf_cons, List.nodup_cons] at hn
    rw [keysOf_cons, List.getElem?_cons_succ] at h
    have hk : k ≠ key := by
      rintro rfl
      exact hn.1 (List.mem_of_getElem? h)
    rw [put, if_neg hk, put_eq_modify hn.2 h]
    rfl

theorem keysOf_put (key : κ) (value : ν) : ∀ l : List (κ × ν),
    keysOf (put key value l) = if key ∈ keysOf l then keysOf l else keysOf l ++ [key]
  | [] => rfl
  | (k, v) :: l => by
    have ih := keysOf_put key value l
    by_cases hk : k = key
    · simp [put, hk]
    · simp only [put, if_neg hk, keysOf_cons, List.mem_cons, Ne.symm hk, false_or, ih]
      split <;> rfl

theorem nodup_put {key : κ} {value : ν} {l : List (κ × ν)} (h : (keysOf l).Nodup) :
    (keysOf (put key value l)).Nodup := by
  rw [keysOf_put]
  split
  · exact h
  · rename_i hk
    refine List.nodup_append.mpr ⟨h, List.pairwise_singleton _ _, ?_⟩
    rintro a ha b hb rfl
    rw [List.mem_singleton] at hb
    exact hk (hb ▸ ha)

theorem nodup_putAll : ∀ (pairs : List (κ × ν)) {l : List (κ × ν)}, (keysOf l).Nodup →
    (keysOf (putAll l pairs)).Nodup
  | [], _, h => h
  | _ :: pairs, _, h => nodup_putAll pairs (nodup_put h)

/-- Pairs with new and distinct keys go to the end as they are. -/
theorem putAll_of_nodup : ∀ {pairs l : List (κ × ν)}, (keysOf (l ++ pairs)).Nodup → putAll l pairs = l ++ pairs
  | [], l, _ => (List.append_nil l).symm
  | e :: pairs, l, h => by
    have hk : e.1 ∉ keysOf l := by
      rw [keysOf_append, List.nodup_append] at h
      exact fun hm => h.2.2 e.1 hm e.1 List.mem_cons_self rfl
    rw [List.append_cons] at h ⊢
    rw [putAll_cons, put_of_not_mem hk, putAll_of_nodup h]

/-- What holds of the keys and of the values holds of those that are put. -/
theorem forall_mem_put {P : κ → Prop} {Q : ν → Prop} {key : κ} {value : ν} (hk : P key) (hv : Q value) :
    ∀ {l : List (κ × ν)}, (∀ e ∈ l, P e.1 ∧ Q e.2) → ∀ e ∈ put key value l, P e.1 ∧ Q e.2
  | [], _, e, he => by
    rw [put, List.mem_singleton] at he
    exact he ▸ ⟨hk, hv⟩
  | (k, v) :: l, h, e, he => by
    rw [put] at he
    have ht := fun e he => h e (List.mem_cons_of_mem _ he)
    split at he <;> rcases List.mem_cons.mp he with rfl | he
    · exact ⟨(h (k, v) List.mem_cons_self).1, hv⟩
    · exact ht e he
    · exact h _ List.mem_cons_self
    · exact forall_mem_put hk hv ht e he

theorem forall_mem_putAll {P : κ → Prop} {Q : ν → Prop} : ∀ (pairs : List (κ × ν)) {l : List (κ × ν)},
    (∀ e ∈ pairs, P e.1 ∧ Q e.2) → (∀ e ∈ l, P e.1 ∧ Q e.2) → ∀ e ∈ putAll l pairs, P e.1 ∧ Q e.2
  | [], _, _, h => h
  | e :: pairs, _, hp, h =>
    have he := hp e List.mem_cons_self
    forall_mem_putAll pairs (fun e' he' => hp e' (List.mem_cons_of_mem _ he')) (forall_mem_put he.1 he.2 h)

end Lists

/-! ## The index -/

namespace Table

variable {κ ν : Type} {hash : κ → UInt64}

/-- The keys are distinct, and the index holds each position exactly once, under the hash of the key there. -/
structure Coherent (t : Table κ ν hash) : Prop where
  nodup_keys : (keysOf t.toList).Nodup
  nodup_index : ∀ h, (t.index.getD h []).Nodup
  mem_index : ∀ h i, i ∈ t.index.getD h [] ↔ ∃ key, (keysOf t.toList)[i]? = some key ∧ hash key = h

theorem keyAt?_eq (t : Table κ ν hash) (i : Nat) : t.keyAt? i = (keysOf t.toList)[i]? := by
  rw [keyAt?, keysOf, List.getElem?_map, toList, Array.getElem?_toList]

theorem coherent_empty : (empty : Table κ ν hash).Coherent where
  nodup_keys := List.nodup_nil
  nodup_index h := by simp [empty]
  mem_index h i := by simp [empty, toList]

theorem toList_replace (t : Table κ ν hash) (i : Nat) (value : ν) :
    (t.replace i value).toList = t.toList.modify i fun e => (e.1, value) := Array.toList_modify

theorem keysOf_replace (t : Table κ ν hash) (i : Nat) (value : ν) :
    keysOf (t.replace i value).toList = keysOf t.toList := by
  rw [toList_replace]
  refine List.ext_getElem? fun j => ?_
  simp only [keysOf, List.getElem?_map, List.getElem?_modify]
  cases t.toList[j]? with
  | none => rfl
  | some e =>
    split <;> rfl

theorem length_keysOf (t : Table κ ν hash) : (keysOf t.toList).length = t.size := List.length_map _

theorem index_push (t : Table κ ν hash) (key : κ) (value : ν) : (t.push key value).index =
    t.index.insert (hash key) (t.size :: t.index.getD (hash key) []) := rfl

theorem toList_push (t : Table κ ν hash) (key : κ) (value : ν) :
    (t.push key value).toList = t.toList ++ [(key, value)] := Array.toList_push

/-- Setting a value moves no key. -/
theorem Coherent.replace {t : Table κ ν hash} (ht : t.Coherent) (i : Nat) (value : ν) :
    (t.replace i value).Coherent where
  nodup_keys := by rw [keysOf_replace]; exact ht.nodup_keys
  nodup_index := ht.nodup_index
  mem_index h j := by rw [keysOf_replace]; exact ht.mem_index h j

variable [DecidableEq κ]

namespace Coherent

variable {t : Table κ ν hash} {key : κ} {value : ν}

/-- Look-up finds the key where it is. -/
theorem position?_eq_some_iff (ht : t.Coherent) {i : Nat} :
    t.position? key = some i ↔ (keysOf t.toList)[i]? = some key := by
  have hs : ∀ {j}, t.position? key = some j → (keysOf t.toList)[j]? = some key := fun {j} h => by
    simpa [keyAt?_eq] using List.find?_some h
  refine ⟨hs, fun h => ?_⟩
  have hm : i ∈ t.index.getD (hash key) [] := (ht.mem_index _ i).mpr ⟨key, h, rfl⟩
  cases hp : t.position? key with
  | none =>
    rw [position?, List.find?_eq_none] at hp
    have hi := hp i hm
    rw [keyAt?_eq, h] at hi
    exact absurd (decide_eq_true rfl) hi
  | some j =>
    obtain ⟨hl, -⟩ := List.getElem?_eq_some_iff.mp h
    rw [(List.getElem?_inj hl ht.nodup_keys).mp (h.trans (hs hp).symm)]

theorem position?_eq_none_iff (ht : t.Coherent) : t.position? key = none ↔ key ∉ keysOf t.toList := by
  constructor
  · intro h hm
    obtain ⟨i, hi⟩ := List.mem_iff_getElem?.mp hm
    rw [ht.position?_eq_some_iff.mpr hi] at h
    cases h
  · intro h
    cases hp : t.position? key with
    | none => rfl
    | some i => exact absurd (List.mem_of_getElem? (ht.position?_eq_some_iff.mp hp)) h

theorem push (ht : t.Coherent) (hk : key ∉ keysOf t.toList) (value : ν) : (t.push key value).Coherent where
  nodup_keys := by
    rw [toList_push, ← put_of_not_mem hk]
    exact nodup_put ht.nodup_keys
  nodup_index h := by
    have hn : t.size ∉ t.index.getD h [] := fun hm => by
      obtain ⟨k, hs, -⟩ := (ht.mem_index h t.size).mp hm
      obtain ⟨hl, -⟩ := List.getElem?_eq_some_iff.mp hs
      rw [length_keysOf] at hl
      exact Nat.lt_irrefl _ hl
    rw [index_push, Std.HashMap.getD_insert]
    split
    · rename_i he
      rw [← eq_of_beq he] at hn
      exact List.nodup_cons.mpr ⟨hn, ht.nodup_index _⟩
    · exact ht.nodup_index h
  mem_index h i := by
    have hi : (∃ k, (keysOf (t.push key value).toList)[i]? = some k ∧ hash k = h) ↔
        i ∈ t.index.getD h [] ∨ i = t.size ∧ hash key = h := by
      simp only [toList_push, keysOf_append, keysOf_cons, keysOf_nil, getElem?_snoc, length_keysOf, or_and_right,
        exists_or, and_assoc, exists_and_left, exists_eq_left, ht.mem_index]
    rw [hi, index_push, Std.HashMap.getD_insert]
    split
    · rename_i he
      obtain rfl := eq_of_beq he
      rw [List.mem_cons, and_iff_left rfl, or_comm]
    · rename_i he
      exact (or_iff_left fun h => he (beq_iff_eq.mpr h.2)).symm

theorem insert (ht : t.Coherent) (key : κ) (value : ν) : (t.insert key value).2.Coherent := by
  unfold Table.insert
  split
  · exact ht.replace _ _
  · rename_i hp
    exact ht.push (ht.position?_eq_none_iff.mp hp) value

/-- Through the index, a key and its value are put into the entries. -/
theorem toList_insert (ht : t.Coherent) (key : κ) (value : ν) :
    (t.insert key value).2.toList = put key value t.toList := by
  unfold Table.insert
  split
  · rename_i i hp
    rw [toList_replace, put_eq_modify ht.nodup_keys (ht.position?_eq_some_iff.mp hp)]
  · rename_i hp
    rw [toList_push, put_of_not_mem (ht.position?_eq_none_iff.mp hp)]

end Coherent

/-- **Inserting pairs in order puts them into a list.** -/
theorem toList_ofList (pairs : List (κ × ν)) : (ofList pairs : Table κ ν hash).toList = putAll [] pairs := by
  suffices h : ∀ {t : Table κ ν hash}, t.Coherent →
      (pairs.foldl (fun t e => (t.insert e.1 e.2).2) t).toList = putAll t.toList pairs from h coherent_empty
  induction pairs with
  | nil => exact fun _ => rfl
  | cons e pairs ih =>
    intro t ht
    rw [List.foldl_cons, ih (ht.insert e.1 e.2), ht.toList_insert, putAll_cons]

end Table

end Cbor
