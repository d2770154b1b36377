import Mathlib.Data.Finset.Card

/-!
# Searching with a work list

A search takes the first element off a list. It stops there if this is one that it looks for, and
else puts the successors that it has not seen yet at the end of the list. `explore_spec` is what a
search with enough fuel finds: every element that can be reached from the seeds, if there is none to
stop at.
-/

namespace RLucene.Lib

open List

variable {σ : Type} [DecidableEq σ]

/-- Elements that have not been seen go to the end of the list. -/
def enqueue (work : List σ) (seen : Finset σ) : List σ → List σ × Finset σ
  | [] => (work, seen)
  | t :: ts => if t ∈ seen then enqueue work seen ts else enqueue (work ++ [t]) (insert t seen) ts

/-- Whether the search stopped, and what it has seen. -/
def explore (next : σ → List σ) (stop : σ → Bool) :
    (fuel : Nat) → List σ → Finset σ → Bool × Finset σ
  | 0, _, seen => (false, seen)
  | _ + 1, [], seen => (false, seen)
  | fuel + 1, s :: work, seen =>
    if stop s then (true, seen)
    else
      let (work, seen) := enqueue work seen (next s)
      explore next stop fuel work seen

/-- There is a path from one of the seeds. -/
def ReachedFrom (next : σ → List σ) (seeds : List σ) (s : σ) : Prop :=
  ∃ r ∈ seeds, Relation.ReflTransGen (fun s t => t ∈ next s) r s

/-- What is seen is reached, and what is not on the list any more is done. -/
structure Exploring (next : σ → List σ) (stop : σ → Bool) (seeds work : List σ) (seen : Finset σ) :
    Prop where
  seeds_seen : ∀ s ∈ seeds, s ∈ seen
  work_seen : ∀ s ∈ work, s ∈ seen
  reached : ∀ s ∈ seen, ReachedFrom next seeds s
  done : ∀ s ∈ seen, s ∉ work → stop s = false ∧ ∀ t ∈ next s, t ∈ seen

variable {next : σ → List σ} {stop : σ → Bool} {seeds work : List σ} {seen dom : Finset σ}

/-- What is put at the end: what has not been seen. -/
theorem enqueue_spec (work : List σ) (seen : Finset σ) (ts : List σ) :
    ∃ new, enqueue work seen ts = (work ++ new, seen ∪ ts.toFinset) ∧ (∀ t ∈ new, t ∈ ts) ∧
      (∀ t ∈ ts, t ∈ seen ∨ t ∈ new) ∧ new.length + seen.card = (seen ∪ ts.toFinset).card := by
  induction ts generalizing work seen with
  | nil => exact ⟨[], by simp [enqueue], by simp, by simp, by simp⟩
  | cons t ts ih =>
    rw [enqueue, toFinset_cons, Finset.union_insert]
    split
    next hseen =>
      obtain ⟨new, hrun, hnew, hall, hcard⟩ := ih work seen
      rw [Finset.insert_eq_of_mem (Finset.mem_union_left _ hseen)]
      exact ⟨new, hrun, fun t ht => mem_cons_of_mem _ (hnew t ht),
        forall_mem_cons.mpr ⟨.inl hseen, hall⟩, hcard⟩
    next hunseen =>
      obtain ⟨new, hrun, hnew, hall, hcard⟩ := ih (work ++ [t]) (insert t seen)
      rw [Finset.insert_union] at hrun hcard
      refine ⟨t :: new, by rw [hrun, append_assoc]; rfl, ?_, ?_, ?_⟩
      · exact forall_mem_cons.mpr ⟨mem_cons_self, fun u hu => mem_cons_of_mem _ (hnew u hu)⟩
      · intro u hu
        rcases mem_cons.mp hu with rfl | hu
        · exact .inr mem_cons_self
        · rcases hall u hu with hin | hin
          · rcases Finset.mem_insert.mp hin with rfl | hin
            · exact .inr mem_cons_self
            · exact .inl hin
          · exact .inr (mem_cons_of_mem _ hin)
      · rw [Finset.card_insert_of_notMem hunseen] at hcard
        rw [length_cons]
        omega

/-- One element is taken off the list. -/
theorem Exploring.step {s : σ} (h : Exploring next stop seeds (s :: work) seen)
    (hstop : stop s = false)
    {new : List σ} (hnew : ∀ t ∈ new, t ∈ next s) (hall : ∀ t ∈ next s, t ∈ seen ∨ t ∈ new) :
    Exploring next stop seeds (work ++ new) (seen ∪ (next s).toFinset) where
  seeds_seen r hr := Finset.mem_union_left _ (h.seeds_seen r hr)
  work_seen u hu := by
    rcases mem_append.mp hu with hu | hu
    · exact Finset.mem_union_left _ (h.work_seen u (mem_cons_of_mem s hu))
    · exact Finset.mem_union_right _ (mem_toFinset.mpr (hnew u hu))
  reached u hu := by
    rcases Finset.mem_union.mp hu with hu | hu
    · exact h.reached u hu
    · obtain ⟨r, hr, hpath⟩ := h.reached s (h.work_seen s mem_cons_self)
      exact ⟨r, hr, hpath.tail (mem_toFinset.mp hu)⟩
  done u hu hout := by
    rw [mem_append, not_or] at hout
    have hseen : u ∈ seen := by
      rcases Finset.mem_union.mp hu with hu | hu
      · exact hu
      · exact (hall u (mem_toFinset.mp hu)).resolve_right hout.2
    by_cases hus : u = s
    · subst hus
      exact ⟨hstop, fun t ht => Finset.mem_union_right _ (mem_toFinset.mpr ht)⟩
    · obtain ⟨hquiet, hclosed⟩ := h.done u hseen (by
        rw [mem_cons, not_or]
        exact ⟨hus, hout.1⟩)
      exact ⟨hquiet, fun t ht => Finset.mem_union_left _ (hclosed t ht)⟩

omit [DecidableEq σ] in
/-- With an empty list, all that can be reached has been seen. -/
theorem Exploring.mem_iff (h : Exploring next stop seeds [] seen) (s : σ) :
    s ∈ seen ↔ ReachedFrom next seeds s := by
  refine ⟨h.reached s, ?_⟩
  rintro ⟨r, hr, hpath⟩
  induction hpath with
  | refl => exact h.seeds_seen r hr
  | tail _ hstep ih => exact (h.done _ ih not_mem_nil).2 _ hstep

/-- Each element is put on the list at most once, so that the fuel is enough. -/
theorem explore_spec {fuel : Nat} (hdom : ∀ s ∈ dom, ∀ t ∈ next s, t ∈ dom) (hseen : seen ⊆ dom)
    (h : Exploring next stop seeds work seen) (hfuel : work.length + dom.card < fuel + seen.card) :
    ((explore next stop fuel work seen).1 = true → ∃ s, ReachedFrom next seeds s ∧ stop s = true) ∧
      ((explore next stop fuel work seen).1 = false → ∀ s,
        (s ∈ (explore next stop fuel work seen).2 ↔ ReachedFrom next seeds s) ∧
        (ReachedFrom next seeds s → stop s = false)) := by
  have hcard := Finset.card_le_card hseen
  induction fuel generalizing work seen with
  | zero => omega
  | succ fuel ih =>
    cases work with
    | nil =>
      refine ⟨fun hfound => absurd hfound Bool.false_ne_true,
        fun _ s => ⟨h.mem_iff s, fun hs => ?_⟩⟩
      exact (h.done s ((h.mem_iff s).mpr hs) not_mem_nil).1
    | cons s work =>
      rw [explore]
      have hs := h.work_seen s mem_cons_self
      split
      next hstop => exact ⟨fun _ => ⟨s, h.reached s hs, hstop⟩,
        fun hnot => absurd hnot.symm Bool.false_ne_true⟩
      next hstop =>
        obtain ⟨new, hrun, hnew, hall, hnewCard⟩ := enqueue_spec work seen (next s)
        have hsub : seen ∪ (next s).toFinset ⊆ dom := by
          apply Finset.union_subset hseen
          intro t ht
          exact hdom s (hseen hs) t (mem_toFinset.mp ht)
        rw [hrun]
        apply ih hsub (h.step (by simpa using hstop) hnew hall) _ (Finset.card_le_card hsub)
        rw [length_cons] at hfuel
        rw [length_append]
        omega

end RLucene.Lib
