import Mathlib.Data.Finset.Sort
import Mathlib.Data.List.Lex
import Mathlib.Tactic.Common

/-!
# Ordered stores

A store maps keys, which are words over an ordered alphabet, to values. It can be searched for a
key, scanned for the pairs under a prefix, and changed by batches of writes, each of which may
fail. What a lawful store returns depends only on the map it holds.
-/

namespace OrderedStore

inductive LogOp (K V : Type)
  | put (key : K) (value : V)
  | delete (key : K)
deriving DecidableEq, Repr

namespace LogOp

variable {K V : Type}

def key : LogOp K V → K
  | put k _ => k
  | delete k => k

variable [DecidableEq K]

/-- The map after a write. -/
def apply (contents : K → Option V) : LogOp K V → K → Option V
  | put k v, k' => if k' = k then some v else contents k'
  | delete k, k' => if k' = k then none else contents k'

/-- The map after a batch of writes. -/
def applyAll (contents : K → Option V) (ops : List (LogOp K V)) : K → Option V :=
  ops.foldl apply contents

variable {contents : K → Option V} {k : K} {v : V}

@[simp] theorem applyAll_nil : applyAll contents [] = contents := rfl

@[simp] theorem applyAll_cons (op : LogOp K V) (ops : List (LogOp K V)) :
    applyAll contents (op :: ops) = applyAll (apply contents op) ops := rfl

theorem applyAll_append (xs ys : List (LogOp K V)) :
    applyAll contents (xs ++ ys) = applyAll (applyAll contents xs) ys :=
  List.foldl_append

/-- A batch of puts to distinct keys overrides the map. -/
theorem applyAll_puts {rows : List (K × V)} (nodup : (rows.map Prod.fst).Nodup) :
    applyAll contents (rows.map fun row => put row.1 row.2) k = some v ↔
      (k, v) ∈ rows ∨ k ∉ rows.map Prod.fst ∧ contents k = some v := by
  induction rows generalizing contents with
  | nil => simp
  | cons row rows ih =>
    obtain ⟨k₀, v₀⟩ := row
    rw [List.map_cons, List.nodup_cons] at nodup
    rw [List.map_cons, applyAll_cons, ih nodup.2, List.mem_cons, List.map_cons, List.mem_cons]
    by_cases hk : k = k₀
    · subst hk
      have hrest : (k, v) ∉ rows := by
        intro h
        exact nodup.1 (List.mem_map.mpr ⟨(k, v), h, rfl⟩)
      simp [apply, hrest, nodup.1, eq_comm]
    · simp [apply, hk]

theorem applyAll_deletes (keys : List K) :
    applyAll contents (keys.map (delete (V := V))) k = if k ∈ keys then none else contents k := by
  induction keys generalizing contents with
  | nil => rfl
  | cons k₀ keys ih =>
    rw [List.map_cons, applyAll_cons, ih]
    by_cases hk : k = k₀ <;> simp [apply, hk]

theorem applyAll_of_notMem {ops : List (LogOp K V)} (h : k ∉ ops.map key) :
    applyAll contents ops k = contents k := by
  induction ops generalizing contents with
  | nil => rfl
  | cons op ops ih =>
    rw [List.map_cons, List.mem_cons, not_or] at h
    rw [applyAll_cons, ih h.2]
    cases op <;> exact if_neg h.1

/-! ### The last writer -/

/-- What a write leaves under its key. -/
def value : LogOp K V → Option V
  | put _ v => some v
  | delete _ => none

/-- What the last write to a key leaves there, if any write is to that key. -/
def lastWrite (ops : List (LogOp K V)) (k : K) : Option (Option V) :=
  (ops.reverse.find? fun op => op.key = k).map value

theorem lastWrite_append (xs ys : List (LogOp K V)) :
    lastWrite (xs ++ ys) k = (lastWrite ys k).or (lastWrite xs k) := by
  rw [lastWrite, List.reverse_append, List.find?_append, Option.map_or]
  rfl

/-- A batch leaves under each key what its last writer has written there. -/
theorem applyAll_eq (contents : K → Option V) (ops : List (LogOp K V)) (k : K) :
    applyAll contents ops k = (lastWrite ops k).getD (contents k) := by
  induction ops generalizing contents with
  | nil => rfl
  | cons op ops ih =>
    have hcons : lastWrite (op :: ops) k = (lastWrite ops k).or (lastWrite [op] k) :=
      lastWrite_append [op] ops
    rw [applyAll_cons, ih, hcons]
    cases lastWrite ops k with
    | some w => rfl
    | none =>
      by_cases hk : op.key = k
      · subst hk
        cases op <;> simp [apply, lastWrite, key, value]
      · cases op <;> simp_all [apply, lastWrite, key, eq_comm]

/-- Writes that have been applied may be applied again, if all later ones are. -/
theorem applyAll_overlap (contents : K → Option V) (xs ys zs : List (LogOp K V)) :
    applyAll (applyAll contents (xs ++ ys)) (ys ++ zs) = applyAll contents (xs ++ ys ++ zs) := by
  funext k
  simp only [applyAll_eq, lastWrite_append]
  cases lastWrite zs k with
  | some w => rfl
  | none => cases lastWrite ys k <;> rfl

/-- If the last writes of a batch bring a map to where the whole batch brings another one, then so
do more of its last writes. -/
theorem applyAll_rewind {contents' : K → Option V} {ys zs : List (LogOp K V)}
    (h : applyAll contents zs = applyAll contents' (ys ++ zs)) :
    applyAll contents (ys ++ zs) = applyAll contents' (ys ++ zs) := by
  funext k
  have hk := congrFun h k
  simp only [applyAll_eq, lastWrite_append] at hk ⊢
  cases hz : lastWrite zs k with
  | some w => rfl
  | none =>
    rw [hz, Option.none_or] at hk
    cases hy : lastWrite ys k with
    | some w => rfl
    | none =>
      rw [hy] at hk
      exact hk

end LogOp

/-- Operations that change the store return nothing where they fail. -/
class Store (α V : outParam Type) (κ : Type) where
  get : κ → List α → Option V
  /-- The pairs whose key starts with the prefix. -/
  scan : κ → List α → List (List α × V)
  put : κ → List α → V → Option κ
  applyBatch : κ → List (LogOp (List α) V) → Option κ
  /-- Closes the store and opens it again. -/
  reopen : κ → Option κ

section

variable {α V : Type} [LinearOrder α] (κ : Type) [Store α V κ]

/-- Writes are durable and atomic, and a scan returns the matching pairs in key order. -/
structure Lawful : Prop where
  get_put : ∀ {s s' : κ} {k v}, Store.put s k v = some s' →
    Store.get s' = (LogOp.put k v).apply (Store.get s)
  get_applyBatch : ∀ {s s' : κ} {ops}, Store.applyBatch s ops = some s' →
    Store.get s' = LogOp.applyAll (Store.get s) ops
  get_reopen : ∀ {s s' : κ}, Store.reopen s = some s' → Store.get s' = Store.get s
  scan_sorted : ∀ (s : κ) (p : List α), (Store.scan s p).Pairwise fun a b => a.1 < b.1
  mem_scan : ∀ (s : κ) (p k : List α) (v : V),
    (k, v) ∈ Store.scan s p ↔ p <+: k ∧ Store.get s k = some v

/-- No operation fails. -/
structure Reliable : Prop where
  put : ∀ (s : κ) k v, (Store.put s k v).isSome
  applyBatch : ∀ (s : κ) ops, (Store.applyBatch s ops).isSome
  reopen : ∀ s : κ, (Store.reopen s).isSome

variable {κ}

/-- A scan returns any list that is sorted and has the bindings under the prefix. -/
theorem Lawful.scan_eq (lawful : Lawful κ) {s : κ} {p : List α} {rows : List (List α × V)}
    (sorted : rows.Pairwise fun a b => a.1 < b.1)
    (h : ∀ k v, p <+: k → (Store.get s k = some v ↔ (k, v) ∈ rows))
    (keys : ∀ k v, (k, v) ∈ rows → p <+: k) : Store.scan s p = rows := by
  have : Std.Antisymm fun a b : List α × V => a.1 < b.1 := ⟨fun _ _ h h' => (lt_asymm h h').elim⟩
  have : Std.Irrefl fun a b : List α × V => a.1 < b.1 := ⟨fun _ => lt_irrefl _⟩
  apply (lawful.scan_sorted s p).eq_of_mem_iff sorted
  rintro ⟨k, v⟩
  rw [lawful.mem_scan]
  constructor
  · rintro ⟨hp, hk⟩
    exact (h k v hp).mp hk
  · intro hk
    exact ⟨keys k v hk, (h k v (keys k v hk)).mpr hk⟩

end

/-! ## A store kept as the log of its writes -/

/-- The writes a store has accepted, the earliest first. -/
structure WriteLog (α V : Type) where
  ops : List (LogOp (List α) V)

namespace WriteLog

variable {α V : Type} [LinearOrder α]

def contents (s : WriteLog α V) : List α → Option V := LogOp.applyAll (fun _ => none) s.ops

def write (s : WriteLog α V) (ops : List (LogOp (List α) V)) : WriteLog α V := ⟨s.ops ++ ops⟩

/-- The keys written so far, in order. -/
def keys (s : WriteLog α V) : List (List α) := (s.ops.map LogOp.key).toFinset.sort

instance : Store α V (WriteLog α V) where
  get := contents
  scan s p := (s.keys.filter (p.isPrefixOf ·)).filterMap fun k => (s.contents k).map (k, ·)
  put s k v := some (s.write [.put k v])
  applyBatch s ops := some (s.write ops)
  reopen := some

theorem contents_write (s : WriteLog α V) (ops : List (LogOp (List α) V)) :
    (s.write ops).contents = LogOp.applyAll s.contents ops :=
  LogOp.applyAll_append _ _

theorem mem_keys {s : WriteLog α V} {k : List α} {v : V} (h : s.contents k = some v) :
    k ∈ s.keys := by
  rw [keys, Finset.mem_sort, List.mem_toFinset]
  by_contra hk
  rw [contents, LogOp.applyAll_of_notMem hk] at h
  cases h

theorem reliable : Reliable (WriteLog α V) := ⟨fun _ _ _ => rfl, fun _ _ => rfl, fun _ => rfl⟩

theorem lawful : Lawful (WriteLog α V) where
  get_put h := by
    cases h
    exact contents_write _ _
  get_applyBatch h := by
    cases h
    exact contents_write _ _
  get_reopen h := by
    cases h
    rfl
  scan_sorted s p := by
    have sorted : s.keys.Pairwise (· < ·) := (Finset.sortedLT_sort _).pairwise
    apply (sorted.filter _).filterMap
    intro k k' hlt row hrow row' hrow'
    obtain ⟨v, -, rfl⟩ := Option.map_eq_some_iff.mp hrow
    obtain ⟨v', -, rfl⟩ := Option.map_eq_some_iff.mp hrow'
    exact hlt
  mem_scan s p k v := by
    show (k, v) ∈ List.filterMap _ _ ↔ p <+: k ∧ s.contents k = some v
    simp only [List.mem_filterMap, List.mem_filter, List.isPrefixOf_iff_prefix,
      Option.map_eq_some_iff, Prod.mk.injEq]
    constructor
    · rintro ⟨k, ⟨-, hp⟩, v, hv, rfl, rfl⟩
      exact ⟨hp, hv⟩
    · rintro ⟨hp, hv⟩
      exact ⟨k, ⟨mem_keys hv, hp⟩, v, hv, rfl, rfl⟩

end WriteLog

end OrderedStore
