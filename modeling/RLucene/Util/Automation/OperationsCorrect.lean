import RLucene.Util.Automation.AutomatonCorrect
import RLucene.Util.Automation.Operations

/-!
# What the checks say about the language

The searches find the states that some string leads to and those from which some string is accepted
(`getLiveStates_spec`). `isEmpty` and `getSingleton` are right. `isTotalWithRange` looks at live
states only and does not see that a label leads to a dead state; `checks_spec` says when it is
right.
-/

namespace RLucene.Util.Automation

open List Lib Operations

variable {v builder : List Int} {seeds : List Nat} {t : Transition} {fuel : Nat}
  {visited : Finset Nat}

namespace Automaton

/-- Some string leads to the state. -/
def Reachable (a : Automaton) (state : Nat) : Prop :=
  ∃ w, state ∈ a.nfa.evalFrom {0} w

/-- Some string is accepted from the state. -/
def CoReachable (a : Automaton) (state : Nat) : Prop :=
  ∃ w, w ∈ a.nfa.acceptsFrom {state}

/-! ## Paths -/

section

variable {a : Automaton} {s r : Nat} {label : Int} {w : List Int}

/-- The first step of a run. -/
theorem mem_evalFrom_cons : r ∈ a.nfa.evalFrom {s} (label :: w) ↔
    ∃ t ∈ a.nfa.step s label, r ∈ a.nfa.evalFrom {t} w := by
  rw [NFA.evalFrom_cons, NFA.stepSet_singleton, NFA.mem_evalFrom_iff_exists]

/-- The last step of a run. -/
theorem mem_evalFrom_concat : r ∈ a.nfa.evalFrom {s} (w ++ [label]) ↔
    ∃ t ∈ a.nfa.evalFrom {s} w, r ∈ a.nfa.step t label := by
  rw [NFA.evalFrom_append, NFA.evalFrom_singleton, NFA.mem_stepSet]

theorem nil_mem_acceptsFrom : [] ∈ a.nfa.acceptsFrom {s} ↔ s ∈ a.isAccept := by
  simp [nfa]

theorem cons_mem_acceptsFrom : label :: w ∈ a.nfa.acceptsFrom {s} ↔
    ∃ t ∈ a.nfa.step s label, w ∈ a.nfa.acceptsFrom {t} := by
  simp only [NFA.mem_acceptsFrom, mem_evalFrom_cons]
  tauto

/-- A run and what is accepted after it. -/
theorem append_mem_acceptsFrom (hr : r ∈ a.nfa.evalFrom {s} v) (hw : w ∈ a.nfa.acceptsFrom {r}) :
    v ++ w ∈ a.nfa.acceptsFrom {s} := by
  obtain ⟨t, ht, hpath⟩ := hw
  exact ⟨t, ht, NFA.evalFrom_append .. ▸ NFA.mem_evalFrom_iff_exists.mpr ⟨r, hr, hpath⟩⟩

/-- The destinations are those of the steps. -/
theorem mem_dests (h : Finished a) : r ∈ dests a s ↔ ∃ label, r ∈ a.nfa.step s label := by
  constructor
  · intro hr
    obtain ⟨t, ht, rfl⟩ := mem_map.mp hr
    exact ⟨t.min, mem_destsWith_min ht (h.labelled s t ht)⟩
  · rintro ⟨label, t, ht, rfl, -⟩
    exact mem_map_of_mem ht

/-- What destinations lead to is what runs lead to. -/
theorem reflTransGen_dests (h : Finished a) :
    Relation.ReflTransGen (fun s t => t ∈ dests a s) s r ↔ ∃ w, r ∈ a.nfa.evalFrom {s} w := by
  constructor
  · intro hpath
    induction hpath with
    | refl => exact ⟨[], rfl⟩
    | tail _ hstep ih =>
      obtain ⟨w, hw⟩ := ih
      obtain ⟨label, hlabel⟩ := (mem_dests h).mp hstep
      exact ⟨w ++ [label], mem_evalFrom_concat.mpr ⟨_, hw, hlabel⟩⟩
  · rintro ⟨w, hw⟩
    induction w generalizing s with
    | nil =>
      obtain rfl : r = s := hw
      exact .refl
    | cons label w ih =>
      obtain ⟨t, ht, hrest⟩ := mem_evalFrom_cons.mp hw
      exact .head ((mem_dests h).mpr ⟨label, ht⟩) (ih hrest)

/-- What the search reaches. -/
theorem reachedFrom_initial (h : Finished a) : ReachedFrom (dests a) [0] s ↔ a.Reachable s := by
  rw [ReachedFrom, Reachable, ← reflTransGen_dests h]
  simp

/-- From where the search can be reversed. -/
theorem coReachable_iff (h : Finished a) : a.CoReachable s ↔
    ∃ r ∈ a.isAccept, Relation.ReflTransGen (fun s t => t ∈ dests a s) s r := by
  simp only [reflTransGen_dests h]
  constructor
  · rintro ⟨w, r, hr, hw⟩
    exact ⟨r, hr, w, hw⟩
  · rintro ⟨r, hr, w, hw⟩
    exact ⟨w, r, hr, hw⟩

theorem coReachable_initial : a.CoReachable 0 ↔ ∃ w, w ∈ a.language :=
  Iff.rfl

end

end Automaton

namespace Operations

open Automaton

variable {a : Automaton}

/-! ## Searches -/

theorem dests_lt (h : Finished a) : ∀ s ∈ Finset.range a.getNumStates, ∀ t ∈ dests a s,
    t ∈ Finset.range a.getNumStates := by
  intro s _ t ht
  obtain ⟨u, hu, rfl⟩ := mem_map.mp ht
  exact Finset.mem_range.mpr (h.dest_lt s u hu)

/-- A search starts with its seeds. -/
theorem exploring_start {next : Nat → List Nat} {stop : Nat → Bool} (seeds : List Nat) :
    Exploring next stop seeds seeds seeds.toFinset where
  seeds_seen _ := mem_toFinset.mpr
  work_seen _ := mem_toFinset.mpr
  reached s hs := ⟨s, mem_toFinset.mp hs, .refl⟩
  done _ hs hout := absurd (mem_toFinset.mp hs) hout

/-- A search through the states of an automaton. -/
theorem explore_dests (h : Finished a) (stop : Nat → Bool) (hnodup : seeds.Nodup)
    (hseeds : ∀ s ∈ seeds, s < a.getNumStates) :
    let result := explore (dests a) stop (a.getNumStates + 1) seeds seeds.toFinset
    (result.1 = true → ∃ s, ReachedFrom (dests a) seeds s ∧ stop s = true) ∧
      (result.1 = false → ∀ s, (s ∈ result.2 ↔ ReachedFrom (dests a) seeds s) ∧
        (ReachedFrom (dests a) seeds s → stop s = false)) := by
  apply explore_spec (dests_lt h) _ (exploring_start seeds)
  · rw [Finset.card_range, toFinset_card_of_nodup hnodup]
    omega
  · intro s hs
    exact Finset.mem_range.mpr (hseeds s (mem_toFinset.mp hs))

/-- A search that does not stop finds what can be reached. -/
theorem mem_explore_dests (h : Finished a) (hnodup : seeds.Nodup)
    (hseeds : ∀ s ∈ seeds, s < a.getNumStates) (s : Nat) :
    s ∈ (explore (dests a) (fun _ => false) (a.getNumStates + 1) seeds seeds.toFinset).2 ↔
      ReachedFrom (dests a) seeds s := by
  obtain ⟨hstop, hall⟩ := explore_dests h (fun _ => false) hnodup hseeds
  refine (hall ?_ s).1
  by_contra hfound
  obtain ⟨_, -, hfalse⟩ := hstop (by simpa using hfound)
  cases hfalse

/-- The check for the empty language. -/
theorem isEmpty_iff (h : Finished a) : isEmpty a = true ↔ ∀ w, w ∉ a.language := by
  rw [← not_exists, ← coReachable_initial, coReachable_iff h]
  rw [isEmpty]
  split
  next hzero =>
    refine iff_of_true rfl ?_
    rintro ⟨r, hr, -⟩
    have := h.accept_lt r hr
    omega
  next hpos =>
    split
    next hlone =>
      refine iff_of_true rfl ?_
      rintro ⟨r, hr, hpath⟩
      rcases Relation.ReflTransGen.cases_head hpath with rfl | ⟨t, ht, -⟩
      · exact hlone.1 hr
      · rw [dests, hlone.2] at ht
        cases ht
    next =>
      split
      next haccept => exact iff_of_false (by simp) fun hnot => hnot ⟨0, haccept, .refl⟩
      next =>
        have hseeds : ∀ s ∈ [0], s < a.getNumStates := by simpa using Nat.pos_of_ne_zero hpos
        obtain ⟨hfound, hnone⟩ := explore_dests h (fun s => decide (s ∈ a.isAccept))
          (nodup_singleton 0) hseeds
        rw [Bool.not_eq_true']
        constructor
        · rintro hfalse ⟨r, hr, hpath⟩
          have := (hnone hfalse r).2 ⟨0, by simp, hpath⟩
          simp [hr] at this
        · intro hnot
          by_contra htrue
          obtain ⟨s, ⟨r, hr, hpath⟩, hs⟩ := hfound (by simpa using htrue)
          obtain rfl := mem_singleton.mp hr
          exact hnot ⟨s, of_decide_eq_true hs, hpath⟩

/-- The first search. -/
theorem mem_getLiveStatesFromInitial (h : Finished a) (hpos : 0 < a.getNumStates) (s : Nat) :
    s ∈ getLiveStatesFromInitial a ↔ a.Reachable s := by
  rw [getLiveStatesFromInitial, if_neg (by omega), ← reachedFrom_initial h]
  exact mem_explore_dests h (nodup_singleton 0) (by simpa using hpos) s

/-- The transitions of the reversed automaton. -/
theorem mem_reverseTransitions {source : Nat} : (source, t) ∈ reverseTransitions a ↔
    ∃ s < a.getNumStates, ∃ u ∈ a.transitions s, source = u.dest ∧ t = ⟨s, u.min, u.max⟩ := by
  simp only [reverseTransitions, mem_flatMap, mem_range, mem_map, Prod.mk.injEq]
  grind

variable {s : Nat}

/-- The states of an automaton without transitions are the others. -/
theorem lt_of_mem_transitions (a : Automaton) (h : t ∈ a.transitions s) : s < a.getNumStates := by
  by_contra hout
  rw [transitions, getD_eq_getElem?_getD,
    getElem?_eq_none (by rw [getNumStates] at hout; omega)] at h
  cases h

/-- The reversed automaton has the steps backwards. -/
theorem reverse_spec (h : Finished a) :
    ∃ b, ((reverseTransitions a).foldl (fun b (source, t) => b.addTransition source t)
        (Builder.createState^[a.getNumStates] Builder.new)).finish = .ok b ∧
      b.Finished ∧ b.getNumStates = a.getNumStates ∧
      ∀ s label r, r ∈ b.nfa.step s label ↔ s ∈ a.nfa.step r label := by
  obtain ⟨hnew, heq⟩ := Builder.iterate_createState a.getNumStates
  obtain ⟨hvalid, hbuilder⟩ := hnew.foldl_addTransition (reverseTransitions a) (by
    rintro ⟨source, t⟩ he
    obtain ⟨s, hs, u, hu, rfl, rfl⟩ := mem_reverseTransitions.mp he
    rw [heq]
    exact ⟨h.dest_lt s u hu, hs, h.labelled s u hu⟩)
  obtain ⟨b, hrun, hfinished, hnum, -, hstep⟩ := hvalid.finish
  rw [hbuilder, heq] at hnum hstep
  refine ⟨b, hrun, hfinished, hnum, ?_⟩
  intro s label r
  rw [hstep]
  constructor
  · rintro ⟨t, ht, hin⟩
    obtain ⟨s', -, u, hu, rfl, rfl⟩ := mem_reverseTransitions.mp ht
    obtain ⟨_, hmem, rfl, hlabel⟩ := hin
    obtain rfl := mem_singleton.mp hmem
    exact ⟨u, hu, rfl, hlabel⟩
  · rintro ⟨u, hu, rfl, hlabel⟩
    exact ⟨⟨r, u.min, u.max⟩,
      mem_reverseTransitions.mpr ⟨r, lt_of_mem_transitions a hu, u, hu, rfl, rfl⟩,
      _, mem_singleton_self _, rfl, hlabel⟩

/-- The second search. -/
theorem getLiveStatesToAccept_spec (h : Finished a) :
    ∃ live, getLiveStatesToAccept a = .ok live ∧ ∀ s, s ∈ live ↔ a.CoReachable s := by
  obtain ⟨b, hrun, hfinished, hnum, hstep⟩ := reverse_spec h
  have hback : ∀ s r, r ∈ dests b s ↔ s ∈ dests a r := by
    intro s r
    rw [mem_dests hfinished, mem_dests h]
    simp [hstep]
  have hwork : ∀ s, s ∈ acceptStates a ↔ s ∈ a.isAccept := by
    intro s
    rw [acceptStates, mem_filter, mem_range, decide_eq_true_eq]
    exact and_iff_right_of_imp (h.accept_lt s)
  refine ⟨_, by rw [getLiveStatesToAccept]; exact congrArg (· >>= _) hrun, ?_⟩
  intro s
  have hnodup : (acceptStates a).Nodup := nodup_range.filter _
  rw [← (show b.getNumStates = a.getNumStates from hnum),
    mem_explore_dests hfinished hnodup (fun s hs => hnum.symm ▸ h.accept_lt s ((hwork s).mp hs)),
    coReachable_iff h]
  simp only [ReachedFrom, hwork, hback]
  exact exists_congr fun r => and_congr_right fun _ => Relation.reflTransGen_swap

/-- The states on the way to an accepting one. -/
theorem getLiveStates_spec (h : Finished a) :
    ∃ live, getLiveStates a = .ok live ∧ ∀ s < a.getNumStates,
      (s ∈ live ↔ a.Reachable s ∧ a.CoReachable s) := by
  obtain ⟨toAccept, hrun, hmem⟩ := getLiveStatesToAccept_spec h
  refine ⟨_, by rw [getLiveStates, hrun]; rfl, ?_⟩
  intro s hs
  rw [Finset.mem_inter, mem_getLiveStatesFromInitial h (by omega), hmem]

/-! ## Totality -/

/-- The labels are in the alphabet. -/
def Over (minAlphabet maxAlphabet : Int) (w : List Int) : Prop :=
  ∀ label ∈ w, minAlphabet ≤ label ∧ label ≤ maxAlphabet

variable {label : Int} {w : List Int}

section

variable {minAlphabet maxAlphabet : Int}

/-- Transitions in the order of their labels without a gap, from the first label of the alphabet or
before it to the last one or behind it. -/
def Gapless (minAlphabet maxAlphabet : Int) (ts : List Transition) : Prop :=
  ts.IsChain (fun t u => u.min = t.max + 1) ∧ (∀ t ∈ ts.head?, t.min ≤ minAlphabet) ∧
    match ts.getLast? with
    | some t => maxAlphabet ≤ t.max
    | none => maxAlphabet < minAlphabet

variable {ts : List Transition}

theorem gapless_cons : Gapless minAlphabet maxAlphabet (t :: ts) ↔
    (t :: ts).IsChain (fun t u => u.min = t.max + 1) ∧ t.min ≤ minAlphabet ∧
      maxAlphabet ≤ ((t :: ts).getLast (cons_ne_nil t ts)).max := by
  simp [Gapless, getLast?_eq_some_getLast (cons_ne_nil t ts)]

/-- Behind a transition there is no gap if each one starts where the last one ended. -/
theorem lastLabel_eq_some (hlabels : ∀ u ∈ t :: ts, u.Labelled)
    (hsorted : (t :: ts).Pairwise fun t t' => t.max < t'.min) {last : Int} :
    lastLabel t.max ts = some last ↔ (t :: ts).IsChain (fun t u => u.min = t.max + 1) ∧
      ((t :: ts).getLast (cons_ne_nil t ts)).max = last := by
  induction ts generalizing t with
  | nil => simp [lastLabel]
  | cons u ts ih =>
    obtain ⟨hlabel, hlabels⟩ := forall_mem_cons.mp hlabels
    obtain ⟨hbefore, hsorted⟩ := pairwise_cons.mp hsorted
    have hlt := hbefore u mem_cons_self
    have hu := hlabels u mem_cons_self
    unfold Transition.Labelled at hlabel hu
    rw [lastLabel, asI_32 (by omega) (by omega), isChain_cons_cons, getLast_cons_cons, and_assoc,
      ← ih hlabels hsorted]
    split
    · simp only [reduceCtorEq, false_iff, not_and]
      omega
    · exact (and_iff_right (by omega)).symm

/-- What is checked of a state. If the alphabet starts with the least label, the label before it
wraps around, and a state without transitions passes. -/
theorem coversRange_iff (hmin : -2147483648 ≤ minAlphabet) (hmin' : minAlphabet ≤ 2147483647)
    (hmax : maxAlphabet ≤ 2147483647) (hlabels : ∀ u ∈ ts, u.Labelled)
    (hsorted : ts.Pairwise fun t t' => t.max < t'.min) :
    coversRange minAlphabet maxAlphabet ts = true ↔
      Gapless minAlphabet maxAlphabet ts ∨ minAlphabet = -2147483648 ∧ ts = [] := by
  -- the label before the alphabet, and the one behind that
  have hprevious : asI 32 (minAlphabet - 1) =
      if minAlphabet = -2147483648 then 2147483647 else minAlphabet - 1 := by
    split
    next hleast => rw [hleast]; decide
    next => exact asI_32 (by omega) (by omega)
  have hnext : asI 32 (asI 32 (minAlphabet - 1) + 1) = minAlphabet := by
    rw [asI_asI_add, sub_add_cancel, asI_32 (by omega) (by omega)]
  rw [coversRange]
  cases ts with
  | nil =>
    rw [lastLabel, hprevious]
    simp only [Gapless, Bool.not_eq_true', decide_eq_false_iff_not, getLast?_nil, head?_nil]
    split <;> simp <;> omega
  | cons t ts =>
    rw [lastLabel, hnext, gapless_cons]
    simp only [reduceCtorEq, and_false, or_false]
    by_cases hgap : t.min > minAlphabet
    · simp only [if_pos hgap, Bool.false_eq_true, false_iff]
      omega
    · rw [if_neg hgap]
      cases hlast : lastLabel t.max ts with
      | none =>
        simp only [Bool.false_eq_true, false_iff]
        rintro ⟨hchain, -⟩
        rw [(lastLabel_eq_some hlabels hsorted).mpr ⟨hchain, rfl⟩] at hlast
        cases hlast
      | some last =>
        obtain ⟨hchain, rfl⟩ := (lastLabel_eq_some hlabels hsorted).mp hlast
        simp only [Bool.not_eq_true', decide_eq_false_iff_not]
        exact ⟨fun hle => ⟨hchain, by omega, by omega⟩, fun hgapless => by omega⟩

/-- Transitions without a gap have the labels between the first one and the last one. -/
theorem exists_of_isChain (h : (t :: ts).IsChain fun t u => u.min = t.max + 1)
    (hlow : t.min ≤ label)
    (hhigh : label ≤ ((t :: ts).getLast (cons_ne_nil t ts)).max) :
    ∃ u ∈ t :: ts, u.min ≤ label ∧ label ≤ u.max := by
  induction ts generalizing t with
  | nil => exact ⟨t, mem_cons_self, hlow, hhigh⟩
  | cons u ts ih =>
    obtain ⟨hnext, hrest⟩ := isChain_cons_cons.mp h
    by_cases hin : label ≤ t.max
    · exact ⟨t, mem_cons_self, hlow, hin⟩
    · obtain ⟨v, hv, hlabel⟩ := ih hrest (by omega) hhigh
      exact ⟨v, mem_cons_of_mem t hv, hlabel⟩

/-- A state without a gap has the labels of the alphabet. -/
theorem step_nonempty_of_gapless (h : Gapless minAlphabet maxAlphabet (a.transitions s))
    (hlow : minAlphabet ≤ label) (hhigh : label ≤ maxAlphabet) : ∃ r, r ∈ a.nfa.step s label := by
  have hlabel : ∃ t ∈ a.transitions s, t.min ≤ label ∧ label ≤ t.max := by
    generalize a.transitions s = ts at h
    cases ts with
    | nil =>
      have : maxAlphabet < minAlphabet := h.2.2
      omega
    | cons t ts =>
      obtain ⟨hchain, hfirst, hlast⟩ := gapless_cons.mp h
      exact exists_of_isChain hchain (by omega) (by omega)
  obtain ⟨t, ht, hlabel⟩ := hlabel
  exact ⟨t.dest, t, ht, rfl, hlabel⟩

theorem lt_of_reachable (h : Finished a) (hpos : 0 < a.getNumStates) (hs : a.Reachable s) :
    s < a.getNumStates := by
  obtain ⟨w, hw⟩ := hs
  induction w using List.reverseRecOn with
  | nil => exact (show s = 0 from hw) ▸ hpos
  | append_singleton w label _ =>
    obtain ⟨t, -, u, hu, rfl, -⟩ := mem_evalFrom_concat.mp hw
    exact h.dest_lt t u hu

/-- What is checked: there is a live state, and all of them accept and have the labels. -/
theorem isTotalWithRange_spec (h : Finished a) :
    ∃ total, isTotalWithRange a minAlphabet maxAlphabet = .ok total ∧
      (total = true ↔ (∃ w, w ∈ a.language) ∧ ∀ s, a.Reachable s → a.CoReachable s →
        s ∈ a.isAccept ∧ coversRange minAlphabet maxAlphabet (a.transitions s) = true) := by
  obtain ⟨live, hrun, hmem⟩ := getLiveStates_spec h
  refine ⟨_, by rw [isTotalWithRange, hrun]; rfl, ?_⟩
  have hfilter : ∀ s, s ∈ (List.range a.getNumStates).filter (· ∈ live) ↔
      s < a.getNumStates ∧ a.Reachable s ∧ a.CoReachable s := by
    intro s
    rw [mem_filter, mem_range, decide_eq_true_eq]
    exact and_congr_right (hmem s)
  -- an automaton that accepts something has a state
  have hpos : ∀ s, a.CoReachable s → 0 < a.getNumStates := by
    rintro s hs
    obtain ⟨r, hr, -⟩ := (coReachable_iff h).mp hs
    exact Nat.zero_lt_of_lt (h.accept_lt r hr)
  rw [Bool.and_eq_true, all_eq_true, Bool.not_eq_true', isEmpty_eq_false_iff_exists_mem, and_comm]
  simp only [hfilter, Bool.and_eq_true, decide_eq_true_eq]
  apply and_congr
  · constructor
    · rintro ⟨s, -, ⟨v, hv⟩, w, hw⟩
      exact ⟨v ++ w, append_mem_acceptsFrom hv hw⟩
    · intro haccepts
      exact ⟨0, hpos 0 haccepts, ⟨[], rfl⟩, haccepts⟩
  · constructor
    · intro hall s hreach hco
      exact hall s ⟨lt_of_reachable h (hpos s hco) hreach, hreach, hco⟩
    · intro hall s hs
      exact hall s hs.2.1 hs.2.2

/-- A string leads to one state at most. -/
theorem eq_of_mem_evalFrom (h : Finished a) (hdet : a.deterministic = true) {r r' : Nat}
    (hr : r ∈ a.nfa.evalFrom {s} w) (hr' : r' ∈ a.nfa.evalFrom {s} w) : r = r' := by
  induction w using List.reverseRecOn generalizing r r' with
  | nil => exact (show r = s from hr).trans (show r' = s from hr').symm
  | append_singleton w label ih =>
    obtain ⟨t, ht, u, hu, rfl, hlow, hhigh⟩ := mem_evalFrom_concat.mp hr
    obtain ⟨t', ht', u', hu', rfl, hlow', hhigh'⟩ := mem_evalFrom_concat.mp hr'
    obtain rfl := ih ht ht'
    have happart : (a.transitions t).Pairwise fun u u' => u.max < u'.min ∨ u'.max < u.min :=
      (h.disjoint hdet t (by rw [h.curState]; simp)).imp .inl
    have : Std.Symm fun u u' : Transition => u.max < u'.min ∨ u'.max < u.min := ⟨fun _ _ => Or.symm⟩
    by_contra hne
    have hdistinct : u ≠ u' := fun heq => hne (congrArg Transition.dest heq)
    have := happart.forall hu hu' hdistinct
    omega

/-- A string leads to some state if every state that is met has its next label. -/
theorem exists_mem_evalFrom (h : ∀ w, Over minAlphabet maxAlphabet w → ∀ s ∈ a.nfa.evalFrom {0} w,
      ∀ label, minAlphabet ≤ label → label ≤ maxAlphabet → ∃ r, r ∈ a.nfa.step s label)
        (hw : Over minAlphabet maxAlphabet w) : ∃ s, s ∈ a.nfa.evalFrom {0} w := by
  induction w using List.reverseRecOn with
  | nil => exact ⟨0, rfl⟩
  | append_singleton w label ih =>
    have hstart : Over minAlphabet maxAlphabet w := fun l hl => hw l (mem_append_left _ hl)
    obtain ⟨hlow, hhigh⟩ := hw label (mem_append_right _ mem_cons_self)
    obtain ⟨s, hs⟩ := ih hstart
    obtain ⟨r, hr⟩ := h w hstart s hs label hlow hhigh
    exact ⟨r, mem_evalFrom_concat.mpr ⟨s, hs, hr⟩⟩

variable (h : Finished a) (hdet : a.deterministic = true)

include h hdet

theorem mem_isAccept_of_mem_language (hw : w ∈ a.language)
    (hs : s ∈ a.nfa.evalFrom {0} w) : s ∈ a.isAccept := by
  obtain ⟨r, hr, hpath⟩ := hw
  exact eq_of_mem_evalFrom h hdet hpath hs ▸ hr

/-- All strings are accepted if all states that they lead to accept and have all labels. -/
theorem total_iff : (∀ w, Over minAlphabet maxAlphabet w → w ∈ a.language) ↔
    ∀ w, Over minAlphabet maxAlphabet w → ∀ s ∈ a.nfa.evalFrom {0} w, s ∈ a.isAccept ∧
      ∀ label, minAlphabet ≤ label → label ≤ maxAlphabet → ∃ r, r ∈ a.nfa.step s label := by
  constructor
  · intro htotal w hw s hs
    refine ⟨mem_isAccept_of_mem_language h hdet (htotal w hw) hs, ?_⟩
    intro label hlow hhigh
    have hnext : Over minAlphabet maxAlphabet (w ++ [label]) :=
      forall_mem_append.mpr ⟨hw, forall_mem_singleton.mpr ⟨hlow, hhigh⟩⟩
    obtain ⟨r, -, hr⟩ := htotal _ hnext
    obtain ⟨t, ht, hstep⟩ := mem_evalFrom_concat.mp hr
    exact ⟨r, eq_of_mem_evalFrom h hdet ht hs ▸ hstep⟩
  · intro hall w hw
    obtain ⟨s, hs⟩ := exists_mem_evalFrom (fun w hw s hs => (hall w hw s hs).2) hw
    exact ⟨s, (hall w hw s hs).1, hs⟩

/-- A state passes the check of its transitions. -/
def Passes (a : Automaton) (minAlphabet maxAlphabet : Int) (s : Nat) : Prop :=
  s ∈ a.isAccept ∧ (Gapless minAlphabet maxAlphabet (a.transitions s) ∨
    minAlphabet = -2147483648 ∧ a.transitions s = [])

/-- There is a live state, and all of them pass. -/
def AllPass (a : Automaton) (minAlphabet maxAlphabet : Int) : Prop :=
  (∃ w, w ∈ a.language) ∧
    ∀ s, a.Reachable s → a.CoReachable s → Passes a minAlphabet maxAlphabet s

/-- The live states tell whether all strings over the alphabet are accepted. If they pass, no string
over the alphabet leads to a dead state or to one with a gap. If they do not, some string over the
alphabet leads to a state that does not accept or lacks a label. -/
def LiveStatesTell (a : Automaton) (minAlphabet maxAlphabet : Int) : Prop :=
  (AllPass a minAlphabet maxAlphabet → ∀ w, Over minAlphabet maxAlphabet w →
    ∀ s ∈ a.nfa.evalFrom {0} w,
      a.CoReachable s ∧ Gapless minAlphabet maxAlphabet (a.transitions s)) ∧
  (¬AllPass a minAlphabet maxAlphabet → ∃ w, Over minAlphabet maxAlphabet w ∧
    ∃ s ∈ a.nfa.evalFrom {0} w, s ∉ a.isAccept ∨
      ∃ label, minAlphabet ≤ label ∧ label ≤ maxAlphabet ∧ a.nfa.step s label = ∅)

/-- The check is that there is a live state, and that all of them pass. -/
theorem isTotalWithRange_iff (hmin : -2147483648 ≤ minAlphabet) (hmin' : minAlphabet ≤ 2147483647)
    (hmax : maxAlphabet ≤ 2147483647) : isTotalWithRange a minAlphabet maxAlphabet = .ok true ↔
    AllPass a minAlphabet maxAlphabet := by
  obtain ⟨total, hrun, hcheck⟩ := @isTotalWithRange_spec a minAlphabet maxAlphabet h
  have hcovers : ∀ s, coversRange minAlphabet maxAlphabet (a.transitions s) = true ↔ _ := fun s =>
    coversRange_iff hmin hmin' hmax (h.labelled s) (h.disjoint hdet s (by rw [h.curState]; simp))
  rw [hrun, Except.ok.injEq, hcheck]
  simp only [hcovers, AllPass, Passes]

/-- If the live states pass, what is left is that no string leads to a dead state or to a gap. -/
theorem total_iff_of_allPass (hpass : AllPass a minAlphabet maxAlphabet) :
    (∀ w, Over minAlphabet maxAlphabet w → w ∈ a.language) ↔
      ∀ w, Over minAlphabet maxAlphabet w → ∀ s ∈ a.nfa.evalFrom {0} w,
        a.CoReachable s ∧ Gapless minAlphabet maxAlphabet (a.transitions s) := by
  rw [total_iff h hdet]
  constructor
  · intro hall w hw s hs
    obtain ⟨haccept, hlabels⟩ := hall w hw s hs
    have hco : a.CoReachable s := ⟨[], nil_mem_acceptsFrom.mpr haccept⟩
    rcases (hpass.2 s ⟨w, hs⟩ hco).2 with hgapless | ⟨-, hnone⟩
    · exact ⟨hco, hgapless⟩
    · -- without transitions there is no label of the alphabet
      refine ⟨hco, hnone ▸ ⟨.nil, by simp, ?_⟩⟩
      by_contra hle
      obtain ⟨r, t, ht, -⟩ := hlabels minAlphabet le_rfl (Int.not_lt.mp hle)
      rw [hnone] at ht
      cases ht
  · intro hlive w hw s hs
    obtain ⟨hco, hgapless⟩ := hlive w hw s hs
    exact ⟨(hpass.2 s ⟨w, hs⟩ hco).1, fun label => step_nonempty_of_gapless hgapless⟩

end

/-! ## Single strings -/

section

/-- The string that is found is the only one. -/
theorem singletonFrom_sound (h : singletonFrom a fuel visited s builder = some w) :
    ∃ v, w = builder ++ v ∧ ∀ u, u ∈ a.nfa.acceptsFrom {s} ↔ u = v := by
  induction fuel generalizing visited s builder with
  | zero => cases h
  | succ fuel ih =>
    rw [singletonFrom] at h
    split at h
    next hreject =>
      split at h
      next t ht =>
        split at h
        next hone =>
          obtain ⟨v, rfl, hv⟩ := ih h
          refine ⟨t.min :: v, by rw [append_assoc]; rfl, ?_⟩
          intro u
          cases u with
          | nil => exact iff_of_false (fun hin => hreject (nil_mem_acceptsFrom.mp hin)) (by simp)
          | cons label u =>
            have hstep : ∀ r, r ∈ a.nfa.step s label ↔ r = t.dest ∧ label = t.min := by
              intro r
              simp only [nfa, destsWith, ht, mem_singleton, exists_eq_left, Set.mem_ofPred_eq]
              constructor <;> rintro ⟨rfl, hlabel⟩ <;> refine ⟨rfl, ?_⟩ <;> omega
            simp only [cons_mem_acceptsFrom, hstep, List.cons.injEq]
            constructor
            · rintro ⟨r, ⟨rfl, hlabel⟩, hu⟩
              exact ⟨hlabel, (hv u).mp hu⟩
            · rintro ⟨hlabel, hu⟩
              exact ⟨t.dest, ⟨rfl, hlabel⟩, (hv u).mpr hu⟩
        next => cases h
      next => cases h
    next haccept =>
      split at h
      next hlast =>
        obtain rfl := Option.some.inj h
        refine ⟨[], (append_nil _).symm, ?_⟩
        intro u
        cases u with
        | nil => exact iff_of_true (nil_mem_acceptsFrom.mpr (not_not.mp haccept)) rfl
        | cons label u =>
          refine iff_of_false (fun hin => ?_) (by simp)
          obtain ⟨r, ⟨t, ht, -⟩, -⟩ := cons_mem_acceptsFrom.mp hin
          rw [hlast] at ht
          cases ht
      next => cases h

variable (h : Finished a) (hdet : a.deterministic = true)
  (hlive : ∀ s, a.Reachable s → a.CoReachable s)

include h hdet hlive

/-- A state from which one string is accepted has the transition of its first label, and no
other. -/
theorem transitions_of_singleton (hs : a.Reachable s)
    (hv : ∀ u, u ∈ a.nfa.acceptsFrom {s} ↔ u = label :: v) :
    ∃ t, a.transitions s = [t] ∧ t.min = label ∧ t.max = label ∧
      ∀ u, u ∈ a.nfa.acceptsFrom {t.dest} ↔ u = v := by
  obtain ⟨w, hw⟩ := hs
  have hlabels : ∀ t ∈ a.transitions s, ∀ l, t.min ≤ l → l ≤ t.max → l = label := by
    intro t ht l hlow hhigh
    have hstep : t.dest ∈ a.nfa.step s l := ⟨t, ht, rfl, hlow, hhigh⟩
    obtain ⟨u, hu⟩ := hlive t.dest ⟨w ++ [l], mem_evalFrom_concat.mpr ⟨s, hw, hstep⟩⟩
    exact (List.cons.inj ((hv (l :: u)).mp (cons_mem_acceptsFrom.mpr ⟨t.dest, hstep, hu⟩))).1
  have hends : ∀ t ∈ a.transitions s, t.min = label ∧ t.max = label := by
    intro t ht
    have hle := (h.labelled s t ht).2.1
    exact ⟨hlabels t ht _ le_rfl hle, hlabels t ht _ hle le_rfl⟩
  obtain ⟨r, ⟨t, ht, rfl, hlow, hhigh⟩, hrest⟩ :=
    cons_mem_acceptsFrom.mp ((hv (label :: v)).mpr rfl)
  have hone : a.transitions s = [t] := by
    have hdisjoint := h.disjoint hdet s (by rw [h.curState]; simp)
    match hts : a.transitions s with
    | [] => rw [hts] at ht; cases ht
    | [t'] => rw [hts] at ht; rw [mem_singleton.mp ht]
    | t₁ :: t₂ :: ts =>
      rw [hts] at hdisjoint hends
      have hlt := (pairwise_cons.mp hdisjoint).1 t₂ mem_cons_self
      have h₁ := (hends t₁ mem_cons_self).2
      have h₂ := (hends t₂ (mem_cons_of_mem _ mem_cons_self)).1
      omega
  refine ⟨t, hone, (hends t ht).1, (hends t ht).2, fun u => ⟨fun hu => ?_, fun hu => hu ▸ hrest⟩⟩
  exact (List.cons.inj ((hv (label :: u)).mp
    (cons_mem_acceptsFrom.mpr ⟨t.dest, ⟨t, ht, rfl, hlow, hhigh⟩, hu⟩))).2

/-- The states that were visited accept longer strings, so that none is met again. -/
theorem singletonFrom_complete (hs : a.Reachable s) (hlt : s < a.getNumStates)
    (hv : ∀ u, u ∈ a.nfa.acceptsFrom {s} ↔ u = v)
    (hvisited : ∀ r ∈ visited, r < a.getNumStates ∧
      ∃ u ∈ a.nfa.acceptsFrom {r}, v.length < u.length)
    (hfuel : a.getNumStates < fuel + visited.card) :
    singletonFrom a fuel visited s builder = some (builder ++ v) := by
  induction fuel generalizing visited s builder v with
  | zero =>
    have hcard := Finset.card_le_card fun r hr => Finset.mem_range.mpr (hvisited r hr).1
    rw [Finset.card_range] at hcard
    omega
  | succ fuel ih =>
    -- a visited state accepts a longer word, so there is no loop
    have hfresh : s ∉ visited := by
      intro hin
      obtain ⟨-, u, hu, hlong⟩ := hvisited s hin
      rw [(hv u).mp hu] at hlong
      omega
    rw [singletonFrom]
    cases v with
    | nil =>
      have haccept : s ∈ a.isAccept := nil_mem_acceptsFrom.mp ((hv []).mpr rfl)
      have hnone : a.transitions s = [] := by
        apply eq_nil_iff_forall_not_mem.mpr
        intro t ht
        obtain ⟨w, hw⟩ := hs
        have hstep : t.dest ∈ a.nfa.step s t.min := mem_destsWith_min ht (h.labelled s t ht)
        obtain ⟨u, hu⟩ := hlive t.dest ⟨w ++ [t.min], mem_evalFrom_concat.mpr ⟨s, hw, hstep⟩⟩
        cases (hv _).mp (cons_mem_acceptsFrom.mpr ⟨t.dest, hstep, hu⟩)
      rw [if_neg (not_not.mpr haccept), if_pos hnone, append_nil]
    | cons label v =>
      obtain ⟨t, hone, hmin, hmax, hrest⟩ := transitions_of_singleton h hdet hlive hs hv
      have ht : t ∈ a.transitions s := hone ▸ mem_cons_self
      have hreject : s ∉ a.isAccept := fun hin => by cases (hv []).mp (nil_mem_acceptsFrom.mpr hin)
      have hnext : a.Reachable t.dest := by
        obtain ⟨w, hw⟩ := hs
        exact ⟨w ++ [label], mem_evalFrom_concat.mpr ⟨s, hw, t, ht, rfl, hmin.le, hmax.ge⟩⟩
      have hold : ∀ r ∈ insert s visited, r < a.getNumStates ∧
          ∃ u ∈ a.nfa.acceptsFrom {r}, v.length < u.length := by
        intro r hr
        rcases Finset.mem_insert.mp hr with rfl | hr
        · exact ⟨hlt, label :: v, (hv _).mpr rfl, Nat.lt_succ_self _⟩
        · obtain ⟨hr, u, hu, hlong⟩ := hvisited r hr
          exact ⟨hr, u, hu, Nat.lt_of_succ_lt hlong⟩
      have hnew : t.dest ∉ insert s visited := by
        intro hin
        obtain ⟨-, u, hu, hlong⟩ := hold _ hin
        rw [(hrest u).mp hu] at hlong
        omega
      rw [if_pos hreject, hone]
      dsimp only
      rw [if_pos ⟨hmin.trans hmax.symm, hnew⟩, ih hnext (h.dest_lt s t ht) hrest hold (by
        rw [Finset.card_insert_of_notMem hfresh]
        omega), hmin, append_assoc]
      rfl

end

/-- `isEmpty` and `getSingleton` are right. `isTotalWithRange` is right exactly where the live
states tell. -/
theorem checks_spec {a : Automaton} (h : a.Finished) :
    (isEmpty a = true ↔ ∀ w, w ∉ a.language) ∧
    (a.deterministic = true →
      (∀ minAlphabet maxAlphabet, -2147483648 ≤ minAlphabet → minAlphabet ≤ 2147483647 →
        maxAlphabet ≤ 2147483647 →
        ((isTotalWithRange a minAlphabet maxAlphabet = .ok true ↔
            ∀ w, Over minAlphabet maxAlphabet w → w ∈ a.language) ↔
          LiveStatesTell a minAlphabet maxAlphabet)) ∧
      (∀ w, getSingleton a = .ok (some w) → ∀ v, v ∈ a.language ↔ v = w) ∧
      ((∀ s, a.Reachable s → a.CoReachable s) → ∀ w, (∀ v, v ∈ a.language ↔ v = w) →
        getSingleton a = .ok (some w))) := by
  refine ⟨isEmpty_iff h, fun hdet => ⟨?_, ?_, ?_⟩⟩
  · intro minAlphabet maxAlphabet hmin hmin' hmax
    rw [isTotalWithRange_iff h hdet hmin hmin' hmax, LiveStatesTell]
    by_cases hpass : AllPass a minAlphabet maxAlphabet
    · rw [← total_iff_of_allPass h hdet hpass]
      simp only [hpass, true_iff, forall_const, not_true, false_imp_iff, and_true]
    · rw [total_iff h hdet]
      simp only [hpass, false_iff, false_imp_iff, not_false_eq_true, forall_const, true_and]
      push Not
      simp only [Set.eq_empty_iff_forall_notMem, imp_iff_not_or]
  · intro w hw
    rw [getSingleton, if_pos hdet] at hw
    obtain ⟨v, rfl, hv⟩ := singletonFrom_sound (Except.ok.inj hw)
    exact hv
  · intro hlive w hw
    have haccepts : w ∈ a.language := (hw w).mpr rfl
    obtain ⟨r, hr, -⟩ := (coReachable_iff h).mp (coReachable_initial.mpr ⟨w, haccepts⟩)
    rw [getSingleton, if_pos hdet, singletonFrom_complete h hdet hlive ⟨[], rfl⟩
      (Nat.zero_lt_of_lt (h.accept_lt r hr)) hw (by simp) (by simp)]
    rfl

/-- It is enough to look at the states. -/
theorem finished_of_states (hcur : a.curState = none)
    (haccept : ∀ s ∈ a.isAccept, s < a.getNumStates)
    (hstates : ∀ ts ∈ a.states, (∀ t ∈ ts, t.dest < a.getNumStates ∧ t.Labelled) ∧
      ts.Pairwise fun t t' => t.max < t'.min) : Finished a := by
  have hmem : ∀ state, a.transitions state = [] ∨ a.transitions state ∈ a.states := by
    intro state
    rw [transitions, getD_eq_getElem?_getD]
    cases hget : a.states[state]? with
    | none => exact .inl rfl
    | some ts => exact .inr (mem_of_getElem? hget)
  have hall : ∀ state, (∀ t ∈ a.transitions state, t.dest < a.getNumStates ∧ t.Labelled) ∧
      (a.transitions state).Pairwise fun t t' => t.max < t'.min := by
    intro state
    rcases hmem state with hnone | hin
    · rw [hnone]
      exact ⟨by simp, .nil⟩
    · exact hstates _ hin
  exact ⟨⟨fun state t ht => ((hall state).1 t ht).1, fun state t ht =>
    ((hall state).1 t ht).2, haccept,
    fun _ state _ => (hall state).2⟩, hcur⟩

/-- One string with one label. -/
def oneString : Automaton :=
  ⟨none, [[⟨1, 97, 97⟩], []], {1}, true⟩

/-- All strings of code points, with the labels in two intervals. -/
def allStrings : Automaton :=
  ⟨none, [[⟨0, 0, 0xFF⟩, ⟨0, 0x100, 0x10FFFF⟩]], {0}, true⟩

/-- An automaton for all strings, and one for one string. -/
theorem checks_spec_allStrings :
    (isTotal allStrings = .ok true ∧ ∀ w, Over 0 0x10FFFF w → w ∈ allStrings.language) ∧
    getSingleton oneString = .ok (some [97]) ∧ ∀ v, v ∈ oneString.language ↔ v = [97] := by
  have hall : allStrings.Finished := finished_of_states rfl (by decide) (by decide)
  have hone : oneString.Finished := finished_of_states rfl (by decide) (by decide)
  have hsingle : getSingleton oneString = .ok (some [97]) := by decide +kernel
  have htotal : isTotal allStrings = .ok true := by decide +kernel
  have hzero : ∀ s, allStrings.Reachable s → s = 0 := fun s hs => by
    have : s < 1 := lt_of_reachable hall (by decide) hs
    omega
  have hco : allStrings.CoReachable 0 := ⟨[], nil_mem_acceptsFrom.mpr (by decide)⟩
  have hgapless : Gapless 0 0x10FFFF (allStrings.transitions 0) :=
    gapless_cons.mpr ⟨by simp, by decide, by decide⟩
  have htell : LiveStatesTell allStrings 0 0x10FFFF := by
    refine ⟨fun _ w _ s hs => hzero s ⟨w, hs⟩ ▸ ⟨hco, hgapless⟩, fun hnot => absurd ⟨hco, ?_⟩ hnot⟩
    intro s hs _
    rw [hzero s hs]
    exact ⟨by decide, .inl hgapless⟩
  exact ⟨⟨htotal, ((((checks_spec hall).2 rfl).1 0 0x10FFFF (by decide) (by decide) (by decide)).mpr
    htell).mp htotal⟩, hsingle, ((checks_spec hone).2 rfl).2.1 [97] hsingle⟩

/-- Every label of the initial state leads to a state without transitions. -/
def deadEnd : Automaton :=
  ⟨none, [[⟨1, 0, 0x10FFFF⟩], []], {0}, true⟩

/-- A label that leads to a dead state. -/
theorem isTotal_deadEnd :
    (((Automaton.new.createState).createState).setAccept 0 true).addTransition 0
      ⟨1, 0, 0x10FFFF⟩ >>= (fun a => .ok a.finishState) = .ok deadEnd ∧
    deadEnd.Finished ∧ deadEnd.deterministic = true ∧ isTotal deadEnd = .ok true ∧
    [97] ∉ deadEnd.language := by
  refine ⟨by decide +kernel, finished_of_states rfl (by decide) (by decide),
    rfl, by decide +kernel, ?_⟩
  intro hin
  obtain ⟨r, ⟨t, ht, rfl, -⟩, hrest⟩ := cons_mem_acceptsFrom.mp hin
  have haccept := nil_mem_acceptsFrom.mp hrest
  rw [mem_singleton.mp (show t ∈ [⟨1, 0, 0x10FFFF⟩] from ht)] at haccept
  revert haccept
  decide

end Operations

end RLucene.Util.Automation
