import Mathlib.Data.List.AList
import Mathlib.Algebra.Order.Group.Multiset

/-!
# Reference counts

A table of counts for names, as a finite map. `Represents t refs` says that the counts are those of
a multiset of references: taking references adds to the multiset, dropping them subtracts, and the
names that `decAll` reports are those whose last reference went away. A name can stand in the table
with count zero; for the multiset this is the same as not standing there.
-/

namespace RLucene.Lib

open Multiset

/-- Counts of names. -/
abbrev RefTable (ν : Type) := AList fun _ : ν => Nat

namespace RefTable

variable {ν : Type} [DecidableEq ν] {name m : ν} {names : List ν}

/-- How often a name is referenced. -/
def count (t : RefTable ν) (name : ν) : Nat :=
  (t.lookup name).getD 0

/-- Note a name without counting a reference. -/
def register (t : RefTable ν) (name : ν) : RefTable ν :=
  if name ∈ t then t else t.insert name 0

/-- Reference a name once more. -/
def inc (t : RefTable ν) (name : ν) : RefTable ν :=
  t.insert name (t.count name + 1)

/-- Counters are unsigned words, so going below zero wraps around. -/
def decrement (n : Nat) : Nat :=
  if n = 0 then 2 ^ 64 - 1 else n - 1

/-- Drop a reference, and say whether it was the last one. -/
def dec (t : RefTable ν) (name : ν) : Bool × RefTable ν :=
  let n := decrement (t.count name)
  if n = 0 then (true, t.erase name) else (false, t.insert name n)

/-- Reference some names. -/
def incAll (t : RefTable ν) (names : List ν) : RefTable ν :=
  names.foldl inc t

/-- Drop references, collecting the names that lost their last one. -/
def decAll (t : RefTable ν) : List ν → List ν × RefTable ν
  | [] => ([], t)
  | name :: names =>
    let (last, t) := t.dec name
    let (released, t) := decAll t names
    (if last then released.insert name else released, t)

/-! ## Counts -/

theorem count_insert (t : RefTable ν) (name : ν) (n : Nat) (m : ν) :
    count (AList.insert name n t) m = if m = name then n else t.count m := by
  unfold count
  split
  · rename_i heq
    rw [heq, AList.lookup_insert]
    rfl
  · rename_i hne
    rw [AList.lookup_insert_ne hne]

theorem count_erase (t : RefTable ν) (name m : ν) :
    count (AList.erase name t) m = if m = name then 0 else t.count m := by
  unfold count
  split
  · rename_i heq
    rw [heq, AList.lookup_erase]
    rfl
  · rename_i hne
    rw [AList.lookup_erase_ne hne]

variable {t : RefTable ν}

theorem count_eq_zero_of_notMem (h : name ∉ t) : t.count name = 0 := by
  rw [count, AList.lookup_eq_none.mpr h]
  rfl

@[simp] theorem count_register (t : RefTable ν) (name m : ν) :
    (t.register name).count m = t.count m := by
  unfold register
  split
  · rfl
  · rename_i hnew
    rw [count_insert]
    split
    · rename_i heq
      rw [heq, count_eq_zero_of_notMem hnew]
    · rfl

theorem mem_register : m ∈ t.register name ↔ m = name ∨ m ∈ t := by
  unfold register
  split
  · rename_i hold
    refine ⟨.inr, fun h => ?_⟩
    rcases h with rfl | h
    · exact hold
    · exact h
  · rw [AList.mem_insert]

theorem mem_inc : m ∈ t.inc name ↔ m = name ∨ m ∈ t :=
  AList.mem_insert t

theorem mem_incAll : m ∈ t.incAll names ↔ m ∈ names ∨ m ∈ t := by
  induction names generalizing t with
  | nil => simp [incAll]
  | cons name names ih =>
    show m ∈ (t.inc name).incAll names ↔ _
    rw [ih, mem_inc, List.mem_cons, or_left_comm, or_assoc]

theorem count_inc (t : RefTable ν) (name m : ν) :
    (t.inc name).count m = t.count m + [name].count m := by
  rw [inc, count_insert, List.count_singleton]
  by_cases h : m = name
  · rw [if_pos h, h]
    simp
  · rw [if_neg h]
    simp [Ne.symm h]

theorem count_dec (h : 0 < t.count name) (m : ν) :
    (t.dec name).2.count m = t.count m - [name].count m := by
  have hdec : decrement (t.count name) = t.count name - 1 := if_neg (by omega)
  unfold dec
  rw [hdec, List.count_singleton]
  dsimp only
  by_cases hm : m = name
  · subst hm
    split
    · rw [count_erase, if_pos rfl]
      simp
      omega
    · rw [count_insert, if_pos rfl]
      simp
  · split
    · rw [count_erase, if_neg hm]
      simp [Ne.symm hm]
    · rw [count_insert, if_neg hm]
      simp [Ne.symm hm]

/-- The last reference goes. -/
theorem dec_last (h : 0 < t.count name) : (t.dec name).1 = true ↔ t.count name = 1 := by
  have hdec : decrement (t.count name) = t.count name - 1 := if_neg (by omega)
  unfold dec
  dsimp only
  split
  · simp
    omega
  · simp
    omega

/-! ## References -/

/-- The table counts the references of the multiset. -/
def Represents (t : RefTable ν) (refs : Multiset ν) : Prop :=
  ∀ name, t.count name = refs.count name

theorem represents_empty : Represents (∅ : RefTable ν) 0 := by
  intro name
  rfl

variable {refs : Multiset ν}

section

variable (h : t.Represents refs)

include h

/-- A name is referenced. -/
theorem Represents.pos_iff (name : ν) : 0 < t.count name ↔ name ∈ refs := by
  rw [h name, count_pos]

theorem Represents.register (name : ν) :
    (t.register name).Represents refs := by
  intro m
  rw [count_register, h m]

/-- Some references more. -/
theorem Represents.incAll (names : List ν) :
    (t.incAll names).Represents (refs + names) := by
  induction names generalizing t refs with
  | nil => simpa [RefTable.incAll] using h
  | cons name names ih =>
    have hone : (t.inc name).Represents (refs + {name}) := by
      intro m
      rw [count_inc, h m, count_add, ← coe_singleton, coe_count]
    have hrest := ih hone
    rw [add_assoc, singleton_add, cons_coe] at hrest
    exact hrest

/-- Dropping references that are held leaves the others, and reports the names that are not
referenced any more. -/
theorem Represents.decAll (hle : (names : Multiset ν) ≤ refs) :
    (t.decAll names).2.Represents (refs - names) ∧
      ∀ m, m ∈ (t.decAll names).1 ↔ m ∈ refs ∧ m ∉ refs - names := by
  induction names generalizing t refs with
  | nil =>
    rw [coe_nil, tsub_zero]
    exact ⟨h, fun m => by simp [RefTable.decAll]⟩
  | cons name names ih =>
    rw [← cons_coe] at hle ⊢
    have hmem : name ∈ refs := mem_of_le hle (mem_cons_self _ _)
    have hpos := (h.pos_iff name).mpr hmem
    have hone : (t.dec name).2.Represents (refs.erase name) := by
      intro m
      rw [count_dec hpos, h m, List.count_singleton]
      by_cases hm : m = name
      · simp [hm]
      · simp [count_erase_of_ne hm, Ne.symm hm]
    have hrestle : (names : Multiset ν) ≤ refs.erase name := by
      rw [← erase_cons_head name (names : Multiset ν)]
      exact erase_le_erase name hle
    obtain ⟨hrepr, hreleased⟩ := ih hone hrestle
    rw [sub_cons]
    refine ⟨hrepr, fun m => ?_⟩
    have hlast := dec_last hpos
    rw [h name] at hlast
    -- a name is released here with its last reference, or by the rest
    have hstep : m ∈ (t.decAll (name :: names)).1 ↔
        (m = name ∧ refs.count name = 1) ∨ m ∈ ((t.dec name).2.decAll names).1 := by
      show m ∈ (if (t.dec name).1 then (((t.dec name).2.decAll names).1.insert name) else
        ((t.dec name).2.decAll names).1) ↔ _
      by_cases hcount : (t.dec name).1 = true
      · rw [if_pos hcount, List.mem_insert_iff, hlast.mp hcount]
        simp
      · rw [if_neg hcount]
        have hne : ¬ refs.count name = 1 := fun h1 => hcount (hlast.mpr h1)
        simp [hne]
    rw [hstep, hreleased]
    by_cases hm : m = name
    · subst hm
      have hsplit : m ∈ refs.erase m ↔ 1 < refs.count m := by
        rw [← count_pos, count_erase_self]
        omega
      have hgone : m ∉ refs.erase m → m ∉ refs.erase m - names := fun hout hin =>
        hout (mem_of_le (Multiset.sub_le_self _ _) hin)
      have hcountpos := count_pos.mpr hmem
      by_cases hcount : refs.count m = 1
      · have hout : m ∉ refs.erase m := by rw [hsplit]; omega
        simp [hcount, hmem, hgone hout]
      · have hin : m ∈ refs.erase m := hsplit.mpr (by omega)
        simp [hcount, hmem, hin]
    · simp [hm, mem_erase_of_ne hm]

end

end RefTable

end RLucene.Lib
