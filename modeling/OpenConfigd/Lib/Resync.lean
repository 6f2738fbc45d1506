import Mathlib.Data.List.AList
import Mathlib.Data.List.Induction
import OpenConfigd.Lib.Latest

/-!
# Following a list of items in a store

A store has at most one value under a key, and an item is added under its key unless
the key is taken. `sync` takes a store from the items of one list to those of
another: it caches the old items, marks those that the new list has too, drops the
others and adds what is not marked. `sync_at` is what the store has under a key
afterwards, and `sync_eq_iff` when that is what the new items alone would give.
-/

namespace Resync

variable {α β κ : Type*} [DecidableEq κ] (key : α → κ) (value : α → Option β) (same : α → α → Bool)

/-- An item is added under its key, unless that is taken. -/
def add (s : κ → Option β) (a : α) : κ → Option β :=
  if (s (key a)).isSome then s else Function.update s (key a) (value a)

def addAll (s : κ → Option β) (l : List α) : κ → Option β := l.foldl (add key value) s

/-- A cached item, and whether it is marked. -/
structure Cached (α : Type*) where
  same : Bool
  item : α

def cache (old : List α) : AList fun _ : κ => Cached α :=
  old.foldl (fun m a => m.insert (key a) ⟨false, a⟩) ∅

/-- The items that a new item is the same as are marked. -/
def mark (m : AList fun _ : κ => Cached α) (new : List α) : AList fun _ : κ => Cached α :=
  new.foldl (fun m a =>
    match m.lookup (key a) with
    | some c => if same c.item a then m.insert (key a) { c with same := true } else m
    | none => m) m

/-- The items that are not marked are dropped. -/
def purge (m : AList fun _ : κ => Cached α) (s : κ → Option β) : κ → Option β :=
  m.entries.foldl (fun s x => if x.2.same then s else Function.update s (key x.2.item) none) s

/-- The new items are put in where none is marked. -/
def refill (put : (κ → Option β) → α → κ → Option β) (m : AList fun _ : κ => Cached α) (s : κ → Option β)
    (new : List α) : κ → Option β :=
  new.foldl (fun s a =>
    match m.lookup (key a) with
    | some c => if c.same then s else put s a
    | none => put s a) s

def sync (put : (κ → Option β) → α → κ → Option β) (old new : List α) (s : κ → Option β) : κ → Option β :=
  let m := mark key same (cache key old) new
  refill key put m (purge key m s) new

/-- The value of the first item of a key that has one. -/
def found (l : List α) (k : κ) : Option β := l.findSome? fun a => if key a = k then value a else none

/-- The old item of the key is the same as a new one. -/
def kept (old new : List α) (k : κ) : Bool :=
  (Latest.last key k old).any fun o => new.any fun a => decide (key a = k) && same o a

variable {key value same} {s : κ → Option β} {l old new : List α} {k : κ} {a : α}

theorem add_at (s : κ → Option β) (a : α) (k : κ) :
    add key value s a k = (s k).or (if key a = k then value a else none) := by
  unfold add
  by_cases hk : key a = k
  · subst hk
    cases hs : s (key a) with
    | some b => simp [hs]
    | none => simp
  · have hne : k ≠ key a := fun h => hk h.symm
    rw [if_neg hk, Option.or_none]
    split
    · rfl
    · rw [Function.update_of_ne hne]

/-- An item without a value changes nothing. -/
theorem add_of_none (s : κ → Option β) (h : value a = none) : add key value s a = s := by
  funext k
  rw [add_at, h, ite_self, Option.or_none]

theorem addAll_at (s : κ → Option β) (l : List α) (k : κ) :
    addAll key value s l k = (s k).or (found key value l k) := by
  unfold addAll found
  induction l generalizing s with
  | nil => simp
  | cons a l ih =>
    rw [List.foldl_cons, ih, add_at, List.findSome?_cons, Option.or_assoc]
    cases (if key a = k then value a else none) <;> rfl

theorem found_of_nodup (hn : (l.map key).Nodup) (h : a ∈ l) : found key value l (key a) = value a := by
  unfold found
  induction l with
  | nil => cases h
  | cons b l ih =>
    rw [List.map_cons, List.nodup_cons] at hn
    rw [List.findSome?_cons]
    rcases List.mem_cons.mp h with rfl | h
    · have hrest : (l.findSome? fun c => if key c = key a then value c else none) = none := by
        rw [List.findSome?_eq_none_iff]
        intro c hc
        have hne : key c ≠ key a := fun e => hn.1 (e ▸ List.mem_map_of_mem hc)
        rw [if_neg hne]
      rw [if_pos rfl, hrest]
      cases value a <;> rfl
    · have hne : key b ≠ key a := fun e => hn.1 (e ▸ List.mem_map_of_mem h)
      rw [if_neg hne]
      exact ih hn.2 h

theorem found_eq_none (h : ∀ a ∈ l, key a ≠ k) : found key value l k = none := by
  unfold found
  rw [List.findSome?_eq_none_iff]
  intro a ha
  rw [if_neg (h a ha)]

theorem lookup_cache (old : List α) (k : κ) :
    (cache key old).lookup k = (Latest.last key k old).map fun a => ⟨false, a⟩ := by
  unfold cache
  induction old using List.reverseRecOn with
  | nil => simp
  | append_singleton l a ih =>
    rw [List.foldl_append, List.foldl_cons, List.foldl_nil, Latest.last_append, Latest.last_singleton]
    by_cases hk : key a = k
    · subst hk
      simp
    · simp [hk, AList.lookup_insert_ne (fun h => hk h.symm), ih]

theorem lookup_mark (m : AList fun _ : κ => Cached α) (new : List α) (k : κ) :
    (mark key same m new).lookup k = (m.lookup k).map fun c =>
      { c with same := c.same || new.any fun a => decide (key a = k) && same c.item a } := by
  unfold mark
  induction new generalizing m with
  | nil => cases h : m.lookup k <;> simp [h]
  | cons a new ih =>
    rw [List.foldl_cons, ih]
    by_cases hk : key a = k
    · subst hk
      cases h : m.lookup (key a) with
      | none => simp [h]
      | some c =>
        by_cases hs : same c.item a <;> simp [h, hs]
    · -- the entry of `k` is not touched
      have hne : k ≠ key a := fun h => hk h.symm
      have hother : (match m.lookup (key a) with
          | some c => if same c.item a then m.insert (key a) { c with same := true } else m
          | none => m).lookup k = m.lookup k := by
        split
        · split
          · rw [AList.lookup_insert_ne hne]
          · rfl
        · rfl
      rw [hother]
      simp [hk]

/-- Every item is cached under its own key. -/
def Indexed (key : α → κ) (m : AList fun _ : κ => Cached α) : Prop :=
  ∀ k c, m.lookup k = some c → key c.item = k

theorem indexed_sync : Indexed key (mark key same (cache key old) new) := by
  intro k c h
  rw [lookup_mark, lookup_cache, Option.map_map, Option.map_eq_some_iff] at h
  obtain ⟨a, ha, rfl⟩ := h
  exact (Latest.mem_of_last ha).2

theorem purge_at {m : AList fun _ : κ => Cached α} (hm : Indexed key m) (s : κ → Option β) (k : κ) :
    purge key m s k = if (m.lookup k).any (fun c => !c.same) then none else s k := by
  have hkey : ∀ x ∈ m.entries, key x.2.item = x.1 := fun x hx => hm x.1 x.2 (AList.mem_lookup_iff.mpr hx)
  have hdrop : (m.lookup k).any (fun c => !c.same) = m.entries.any fun x => decide (x.1 = k) && !x.2.same := by
    rw [Bool.eq_iff_iff, Option.any_eq_true, List.any_eq_true]
    constructor
    · rintro ⟨c, hc, hs⟩
      exact ⟨⟨k, c⟩, AList.mem_lookup_iff.mp hc, by simpa using hs⟩
    · rintro ⟨⟨k', c⟩, hx, hs⟩
      simp only [Bool.and_eq_true, decide_eq_true_eq] at hs
      obtain ⟨rfl, hs⟩ := hs
      exact ⟨c, AList.mem_lookup_iff.mpr hx, hs⟩
  rw [hdrop]
  unfold purge
  generalize m.entries = l at hkey
  induction l generalizing s with
  | nil => rfl
  | cons x l ih =>
    rw [List.foldl_cons, ih _ fun y hy => hkey y (List.mem_cons_of_mem _ hy), List.any_cons,
      hkey x List.mem_cons_self]
    cases x.2.same with
    | true => rw [if_pos rfl, Bool.not_true, Bool.and_false, Bool.false_or]
    | false =>
      rw [if_neg Bool.false_ne_true (c := false = true), Bool.not_false, Bool.and_true]
      by_cases hk : x.1 = k
      · rw [decide_eq_true hk, Bool.true_or, if_pos rfl, hk, Function.update_self, ite_self]
      · rw [decide_eq_false hk, Bool.false_or, Function.update_of_ne fun h => hk h.symm]

theorem refill_at (m : AList fun _ : κ => Cached α) (s : κ → Option β) (new : List α) (k : κ) :
    refill key (add key value) m s new k =
      if (m.lookup k).any (fun c => c.same) then s k else (s k).or (found key value new k) := by
  unfold refill found
  induction new generalizing s with
  | nil => simp
  | cons a new ih =>
    rw [List.foldl_cons, ih, List.findSome?_cons]
    by_cases hk : key a = k
    · subst hk
      cases hc : m.lookup (key a) with
      | none => cases hv : value a <;> simp [add_at, hv]
      | some c =>
        cases hs : c.same with
        | true => simp [hs]
        | false => cases hv : value a <;> simp [hs, add_at, hv]
    · -- an item of another key leaves the value of `k`
      have hother : (match m.lookup (key a) with
          | some c => if c.same then s else add key value s a
          | none => add key value s a) k = s k := by
        cases m.lookup (key a) with
        | none => simp [add_at, hk]
        | some c => cases hs : c.same <;> simp [hs, add_at, hk]
      rw [hother]
      simp [hk]

/-- What is under a key after a sync. -/
theorem sync_at (old new : List α) (s : κ → Option β) (k : κ) :
    sync key same (add key value) old new s k =
      if kept key same old new k then s k
      else (if (Latest.last key k old).isSome then none else s k).or (found key value new k) := by
  unfold sync kept
  rw [refill_at, purge_at indexed_sync, lookup_mark, lookup_cache]
  cases Latest.last key k old with
  | none => simp
  | some o =>
    cases h : new.any fun a => decide (key a = k) && same o a <;> simp [h]

/-- Among items with distinct keys, an item is kept when the old item of its key is the
same. -/
theorem kept_of_nodup (hn : (new.map key).Nodup) (ha : a ∈ new) :
    kept key same old new (key a) = (Latest.last key (key a) old).any fun o => same o a := by
  unfold kept
  congr 1
  funext o
  rw [Bool.eq_iff_iff, List.any_eq_true]
  constructor
  · rintro ⟨b, hb, h⟩
    simp only [Bool.and_eq_true, decide_eq_true_eq] at h
    rw [← List.inj_on_of_nodup_map hn hb ha h.1]
    exact h.2
  · intro h
    exact ⟨a, ha, by simpa using h⟩

theorem kept_eq_false (h : ∀ a ∈ new, key a ≠ k) : kept key same old new k = false := by
  rw [Bool.eq_false_iff]
  intro hk
  obtain ⟨o, -, hany⟩ := (Option.any_eq_true _ _).mp hk
  obtain ⟨a, ha, hak⟩ := List.any_eq_true.mp hany
  simp only [Bool.and_eq_true, decide_eq_true_eq] at hak
  exact h a ha hak.1

/-- A sync from a store without other items than the old ones ends with given values of
the new items exactly when both what is kept and what is added has that value. -/
theorem sync_eq_iff {value' : α → Option β} (hs : ∀ k, Latest.last key k old = none → s k = none)
    (hn : (new.map key).Nodup) :
    sync key same (add key value) old new s = addAll key value' (fun _ => none) new ↔
      ∀ a ∈ new, (if (Latest.last key (key a) old).any (fun o => same o a) then s (key a) else value a) =
        value' a := by
  have hat : ∀ a ∈ new, sync key same (add key value) old new s (key a) =
      if (Latest.last key (key a) old).any (fun o => same o a) then s (key a) else value a := by
    intro a ha
    rw [sync_at, kept_of_nodup hn ha, found_of_nodup hn ha]
    cases ho : Latest.last key (key a) old with
    | none => simp [hs _ ho]
    | some o => simp
  constructor
  · intro h a ha
    rw [← hat a ha, h, addAll_at, Option.none_or, found_of_nodup hn ha]
  · intro h
    funext k
    rw [addAll_at, Option.none_or]
    by_cases hmem : ∃ a ∈ new, key a = k
    · obtain ⟨a, ha, rfl⟩ := hmem
      rw [hat a ha, h a ha, found_of_nodup hn ha]
    · have hnone : ∀ a ∈ new, key a ≠ k := fun a ha hk => hmem ⟨a, ha, hk⟩
      rw [sync_at, kept_eq_false hnone, if_neg (by decide), found_eq_none hnone, found_eq_none hnone,
        Option.or_none]
      split
      · rfl
      · next hl => exact hs k (by simpa using hl)

end Resync
