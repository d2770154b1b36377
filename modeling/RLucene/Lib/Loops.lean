/-!
# Counting loops

Loops over `0 .. n` with an invariant that says how far they have come. The steps may fail; what is
shown is that they do not.
-/

namespace RLucene.Lib

open List

variable {ε σ ι : Type}

/-- A loop over `0 .. n` whose steps succeed and keep an invariant. -/
theorem foldlM_range {step : σ → Nat → Except ε σ} {I : Nat → σ → Prop} {n : Nat}
    (hstep : ∀ i s, i < n → I i s → ∃ s', step s i = .ok s' ∧ I (i + 1) s') {s : σ} (h : I 0 s) :
    ∃ s', (List.range n).foldlM step s = .ok s' ∧ I n s' := by
  induction n with
  | zero => exact ⟨s, rfl, h⟩
  | succ n ih =>
    obtain ⟨mid, hmid, hI⟩ := ih fun i s hi => hstep i s (Nat.lt_succ_of_lt hi)
    obtain ⟨s', hs', hI'⟩ := hstep n mid (Nat.lt_succ_self n) hI
    refine ⟨s', ?_, hI'⟩
    rw [range_succ, foldlM_append, hmid]
    show (step mid n >>= fun s => pure s) = _
    rw [hs']
    rfl

/-- A loop over `0 .. n` whose states are known. -/
theorem foldlM_range_eq {step : σ → Nat → Except ε σ} (f : Nat → σ) {n : Nat}
    (hstep : ∀ i < n, step (f i) i = .ok (f (i + 1))) {s : σ} (h : s = f 0) :
    (List.range n).foldlM step s = .ok (f n) := by
  obtain ⟨s', hrun, rfl⟩ := foldlM_range (I := fun i s => s = f i)
    (fun i s hi hs => ⟨_, hs ▸ hstep i hi, rfl⟩) h
  exact hrun

theorem flatMap_range_succ (f : Nat → List ι) (n : Nat) :
    (List.range (n + 1)).flatMap f = (List.range n).flatMap f ++ f n := by
  rw [range_succ, flatMap_append, flatMap_singleton]

/-- A loop whose steps append. -/
theorem foldlM_range_append {step : List ι → Nat → Except ε (List ι)} {f : Nat → List ι} {n : Nat}
    (h : ∀ i < n, ∀ out, step out i = .ok (out ++ f i)) (out : List ι) :
    (List.range n).foldlM step out = .ok (out ++ (List.range n).flatMap f) := by
  refine foldlM_range_eq (fun k => out ++ (List.range k).flatMap f) (fun i hi => ?_) (by simp)
  rw [h i hi, flatMap_range_succ, append_assoc]

/-- Elements that change nothing can be left out of a loop. -/
theorem foldlM_filter {step : σ → ι → Except ε σ} {keep : ι → Bool} {l : List ι}
    (h : ∀ a ∈ l, keep a = false → ∀ s, step s a = .ok s) (s : σ) :
    (l.filter keep).foldlM step s = l.foldlM step s := by
  induction l generalizing s with
  | nil => rfl
  | cons a l ih =>
    have hrest := ih (forall_mem_cons.mp h).2
    cases hkeep : keep a with
    | true =>
      rw [filter_cons_of_pos hkeep, foldlM_cons, foldlM_cons]
      exact congrArg _ (funext hrest)
    | false =>
      rw [filter_cons_of_neg (by simp [hkeep]), foldlM_cons, h a mem_cons_self hkeep, hrest]
      rfl

/-- A loop that does the same `n` times takes its first step, and goes on `n - 1` times. -/
theorem foldlM_range_const {step : σ → Except ε σ} (n : Nat) (s : σ) :
    (List.range (n + 1)).foldlM (fun s _ => step s) s =
      step s >>= fun s => (List.range n).foldlM (fun s _ => step s) s := by
  rw [range_succ_eq_map, foldlM_cons]
  congr 1
  funext s
  rw [foldlM_map]

end RLucene.Lib
