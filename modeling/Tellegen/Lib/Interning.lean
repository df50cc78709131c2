import Mathlib.Data.List.Nodup

/-!
Interned values: each distinct value is stored once, in the order of its first
occurrence, and is referred to by the code of its position. A code has a fixed
number of values, beyond which it wraps; the codes of a store determine its
values exactly as long as it is no larger than that.
-/

structure Interning (α : Type) where
  values : List α
  nodup : values.Nodup

namespace Interning

variable {α : Type} [DecidableEq α]

def empty : Interning α := ⟨[], List.nodup_nil⟩

def insert (store : Interning α) (a : α) : Interning α :=
  if h : a ∈ store.values then store
  else ⟨store.values ++ [a], List.nodup_append.mpr ⟨store.nodup, List.nodup_singleton a, by
    intro b hb c hc hbc
    rw [List.mem_singleton] at hc
    exact h (hc ▸ hbc ▸ hb)⟩⟩

/-- The code of a stored value, among `width` codes. -/
def code (width : ℕ) (store : Interning α) (a : α) : ℕ := store.values.idxOf a % width

def insertAll (store : Interning α) (l : List α) : Interning α := l.foldl insert store

variable {store : Interning α}

theorem values_prefix_insert (store : Interning α) (a : α) :
    store.values <+: (store.insert a).values := by
  unfold insert
  split
  · exact List.prefix_rfl
  · exact List.prefix_append _ _

theorem mem_insert (a b : α) : b ∈ (store.insert a).values ↔ b ∈ store.values ∨ b = a := by
  unfold insert
  split
  case isTrue h =>
    constructor
    · exact Or.inl
    · rintro (hb | rfl)
      · exact hb
      · exact h
  case isFalse => rw [List.mem_append, List.mem_singleton]

/-- A stored value keeps its code. -/
theorem code_insert (width : ℕ) {b : α} (hb : b ∈ store.values) (a : α) :
    (store.insert a).code width b = store.code width b := by
  obtain ⟨added, hadded⟩ := values_prefix_insert store a
  rw [code, ← hadded, List.idxOf_append_of_mem hb]
  rfl

theorem code_insertAll (width : ℕ) {b : α} (hb : b ∈ store.values) (l : List α) :
    (store.insertAll l).code width b = store.code width b := by
  induction l generalizing store with
  | nil => rfl
  | cons a rest ih =>
    change ((store.insert a).insertAll rest).code width b = _
    rw [ih ((mem_insert a b).mpr (Or.inl hb)), code_insert width hb]

/-- Every code refers to the value it stands for. -/
def Decodes (width : ℕ) (store : Interning α) : Prop :=
  ∀ a ∈ store.values, store.values[store.code width a]? = some a

theorem decodes_iff {width : ℕ} (hwidth : 0 < width) :
    store.Decodes width ↔ store.values.length ≤ width := by
  constructor
  · intro h
    apply Nat.le_of_not_lt
    intro hlong
    -- the first value beyond the codes has the code of the first value of all
    have hcode := h _ (List.getElem_mem hlong)
    rw [code, store.nodup.idxOf_getElem, Nat.mod_self,
      List.getElem?_eq_getElem (by omega), Option.some.injEq, store.nodup.getElem_inj_iff] at hcode
    omega
  · intro h a ha
    have hlt := List.idxOf_lt_length_of_mem ha
    rw [code, Nat.mod_eq_of_lt (by omega), List.getElem?_eq_getElem hlt, List.getElem_idxOf]

end Interning
