import Mathlib.Data.List.Perm.Basic
import Mathlib.Data.List.Nodup

/-!
# Merging sorted streams

Streams are numbered from zero, and the elements of stream `j` are the pairs `(j, d)` with
`d < len j`. `Merged` describes a merge that has taken the first `pos j` elements of each stream:
what has been taken stands in order and before everything that is left. Taking an element that is
least among the next ones keeps this, and when nothing is left, all elements stand in order.
-/

namespace RLucene.Lib

open List

/-- A strict total order on the elements of streams, in which every stream is sorted. -/
structure StreamOrder (n : Nat) (len : Nat → Nat) (before : Nat × Nat → Nat × Nat → Prop) :
    Prop where
  irrefl : ∀ x, ¬ before x x
  trans : ∀ {x y z}, before x y → before y z → before x z
  total : ∀ {x y}, x ≠ y → before x y ∨ before y x
  sorted : ∀ {j d d'}, j < n → d < d' → d' < len j → before (j, d) (j, d')

/-- All elements, one stream after another. -/
def streamElements (n : Nat) (len : Nat → Nat) : List (Nat × Nat) :=
  (range n).flatMap fun j => (range (len j)).map fun d => (j, d)

/-- The first `pos j` elements of each list, in one order, before all others. -/
structure Merged (n : Nat) (len : Nat → Nat) (before : Nat × Nat → Nat × Nat → Prop)
    (pos : Nat → Nat) (order : List (Nat × Nat)) : Prop where
  sorted : order.Pairwise before
  mem : ∀ j d, (j, d) ∈ order ↔ j < n ∧ d < pos j
  ahead : ∀ x ∈ order, ∀ j d, j < n → pos j ≤ d → d < len j → before x (j, d)
  pos_le : ∀ j, j < n → pos j ≤ len j

variable {n : Nat} {len : Nat → Nat} {before : Nat × Nat → Nat × Nat → Prop} {pos : Nat → Nat}
  {order : List (Nat × Nat)}

/-- The elements of all streams. -/
theorem mem_streamElements {j d : Nat} : (j, d) ∈ streamElements n len ↔ j < n ∧ d < len j := by
  simp [streamElements]

theorem streamElements_nodup : (streamElements n len).Nodup := by
  refine nodup_flatMap.mpr ⟨fun j _ => ?_, ?_⟩
  · exact nodup_range.map fun d d' h => (Prod.mk.inj h).2
  · refine nodup_range.imp fun {j j'} hne => ?_
    intro x hx hx'
    obtain ⟨d, -, rfl⟩ := mem_map.mp hx
    obtain ⟨d', -, heq⟩ := mem_map.mp hx'
    exact hne (Prod.mk.inj heq).1.symm

/-- Stream after stream, each from its start. -/
theorem streamElements_pairwise :
    (streamElements n len).Pairwise fun x y => x.1 < y.1 ∨ x.1 = y.1 ∧ x.2 < y.2 := by
  refine pairwise_flatMap.mpr ⟨fun j _ => ?_, ?_⟩
  · exact pairwise_map.mpr (pairwise_lt_range.imp fun h => .inr ⟨rfl, h⟩)
  · refine pairwise_lt_range.imp fun {j j'} hlt x hx y hy => ?_
    obtain ⟨d, -, rfl⟩ := mem_map.mp hx
    obtain ⟨d', -, rfl⟩ := mem_map.mp hy
    exact .inl hlt

theorem streamElements_succ (n : Nat) (len : Nat → Nat) :
    streamElements (n + 1) len = streamElements n len ++ (range (len n)).map fun d => (n, d) := by
  rw [streamElements, range_succ, flatMap_append, flatMap_singleton]
  rfl

theorem streamElements_add (j k : Nat) (len : Nat → Nat) :
    ∃ more, streamElements (j + k) len = streamElements j len ++ more := by
  refine ⟨((range k).map (j + ·)).flatMap fun j => (range (len j)).map fun d => (j, d), ?_⟩
  rw [streamElements, range_add, flatMap_append]
  rfl

/-- Before an element come the streams before its own, and what comes before it there. -/
theorem streamElements_split {j d : Nat} (hj : j < n) (hd : d < len j) :
    ∃ back, streamElements n len =
      (streamElements j len ++ (range d).map fun d => (j, d)) ++ (j, d) :: back := by
  obtain ⟨k, rfl⟩ : ∃ k, n = (j + 1) + k := ⟨n - (j + 1), by omega⟩
  obtain ⟨m, hm⟩ : ∃ m, len j = d + (m + 1) := ⟨len j - d - 1, by omega⟩
  obtain ⟨more, hmore⟩ := streamElements_add (j + 1) k len
  refine ⟨((range m).map fun i => (j, d + (i + 1))) ++ more, ?_⟩
  rw [hmore, streamElements_succ, hm, range_add, range_succ_eq_map]
  simp

theorem StreamOrder.asymm (h : StreamOrder n len before) {x y : Nat × Nat} (hxy : before x y) :
    ¬ before y x :=
  fun hyx => h.irrefl x (h.trans hxy hyx)

namespace Merged

/-- Nothing has been merged yet. -/
theorem start : Merged n len before (fun _ => 0) [] :=
  ⟨List.Pairwise.nil, fun j d => by simp, nofun, fun j _ => Nat.zero_le _⟩

variable (ho : StreamOrder n len before) (h : Merged n len before pos order)

include ho h

/-- Take the next element of a stream that is least among the next ones. -/
theorem take {j : Nat} (hj : j < n) (hpos : pos j < len j)
    (hleast : ∀ j', j' < n → j' ≠ j → pos j' < len j' → before (j, pos j) (j', pos j')) :
    Merged n len before (Function.update pos j (pos j + 1)) (order ++ [(j, pos j)]) := by
  refine ⟨?_, fun j' d => ?_, fun x hx j' d hj' hd hlt => ?_, fun j' hj' => ?_⟩
  · refine pairwise_append.mpr ⟨h.sorted, pairwise_singleton _ _, fun x hx y hy => ?_⟩
    rw [mem_singleton.mp hy]
    exact h.ahead x hx j (pos j) hj (Nat.le_refl _) hpos
  · rw [mem_append, h.mem, mem_singleton, Prod.mk.injEq]
    by_cases heq : j' = j
    · subst heq
      rw [Function.update_self]
      omega
    · rw [Function.update_of_ne heq]
      omega
  · by_cases heq : j' = j
    · subst heq
      rw [Function.update_self] at hd
      rcases mem_append.mp hx with hx | hx
      · exact h.ahead x hx j' d hj' (by omega) hlt
      · rw [mem_singleton.mp hx]
        exact ho.sorted hj' (by omega) hlt
    · rw [Function.update_of_ne heq] at hd
      rcases mem_append.mp hx with hx | hx
      · exact h.ahead x hx j' d hj' hd hlt
      · rw [mem_singleton.mp hx]
        have hnext := hleast j' hj' heq (by omega)
        rcases Nat.lt_or_eq_of_le hd with hd | rfl
        · exact ho.trans hnext (ho.sorted hj' hd hlt)
        · exact hnext
  · by_cases heq : j' = j
    · subst heq
      rw [Function.update_self]
      omega
    · rw [Function.update_of_ne heq]
      exact h.pos_le j' hj'

theorem nodup : order.Nodup := by
  refine h.sorted.imp ?_
  rintro x y hxy rfl
  exact ho.irrefl x hxy

/-- When all streams have been taken, the order is one of all elements. -/
theorem perm (hdone : ∀ j, j < n → len j ≤ pos j) : order.Perm (streamElements n len) := by
  refine (perm_ext_iff_of_nodup (h.nodup ho) streamElements_nodup).mpr fun ⟨j, d⟩ => ?_
  rw [h.mem, mem_streamElements]
  constructor
  · rintro ⟨hj, hd⟩
    exact ⟨hj, Nat.lt_of_lt_of_le hd (h.pos_le j hj)⟩
  · rintro ⟨hj, hd⟩
    exact ⟨hj, Nat.lt_of_lt_of_le hd (hdone j hj)⟩

/-- When as many elements have been taken as there are, nothing is left. -/
theorem done_of_length
    (hlen : (streamElements n len).length ≤ order.length) {j : Nat} (hj : j < n) :
    len j ≤ pos j := by
  have hsub : order ⊆ streamElements n len := fun ⟨j, d⟩ hmem => by
    obtain ⟨hj, hd⟩ := (h.mem j d).mp hmem
    exact mem_streamElements.mpr ⟨hj, Nat.lt_of_lt_of_le hd (h.pos_le j hj)⟩
  have hperm := (subperm_of_subset (h.nodup ho) hsub).perm_of_length_le hlen
  by_contra hlt
  have hmem : (j, pos j) ∈ order :=
    hperm.mem_iff.mpr (mem_streamElements.mpr ⟨hj, Nat.lt_of_not_le hlt⟩)
  exact Nat.lt_irrefl _ ((h.mem j (pos j)).mp hmem).2

/-- If streams have been taken one after another, the order is that of all elements. -/
theorem eq_streamElements (hdone : ∀ j, j < n → len j ≤ pos j)
    (hstreams : order.Pairwise fun x y => x.1 ≤ y.1) : order = streamElements n len := by
  have hlex : order.Pairwise fun x y => x.1 < y.1 ∨ x.1 = y.1 ∧ x.2 < y.2 := by
    refine (hstreams.and h.sorted).imp_of_mem fun {x y} hx hy hboth => ?_
    obtain ⟨hle, hbefore⟩ := hboth
    rcases Nat.lt_or_eq_of_le hle with hlt | heq
    · exact .inl hlt
    · refine .inr ⟨heq, ?_⟩
      by_contra hnot
      obtain ⟨j, d⟩ := x
      obtain ⟨j', d'⟩ := y
      cases heq
      obtain ⟨hj, hd⟩ := (h.mem j d).mp hx
      rcases Nat.lt_or_eq_of_le (Nat.le_of_not_lt hnot) with hlt | rfl
      · exact ho.asymm hbefore (ho.sorted hj hlt (Nat.lt_of_lt_of_le hd (h.pos_le j hj)))
      · exact ho.irrefl _ hbefore
  refine (h.perm ho hdone).eq_of_pairwise (fun x y _ _ hxy hyx => ?_) hlex streamElements_pairwise
  omega

end Merged

end RLucene.Lib
