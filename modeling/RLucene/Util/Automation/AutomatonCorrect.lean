import RLucene.Util.Automation.Automaton

/-!
# Building automata

Finishing a state keeps where its transitions lead to (`reduce_spec`), and adding a transition
adds what it says (`addTransition_spec`). So transitions that come in the order of their sources can
all be added (`addTransitions_spec`), which is what a builder does (`Builder.Valid.finish`).
-/

namespace RLucene.Util.Automation

open List Lib Store

variable {last t : Transition} {source : Nat}

namespace Automaton

/-! ## Sorting and merging -/

section

variable {ts : List Transition} {label : Int} {dest : Nat}

theorem destsWith_cons (t : Transition) (ts : List Transition) (label : Int) :
    destsWith (t :: ts) label = destsWith [t] label ∪ destsWith ts label := by
  ext dest
  simp [destsWith]

theorem destsWith_append (ts ts' : List Transition) (label : Int) :
    destsWith (ts ++ ts') label = destsWith ts label ∪ destsWith ts' label := by
  ext dest
  simp only [destsWith, mem_append, Set.mem_ofPred_eq, Set.mem_union, or_and_right, exists_or]

/-- Sorting changes the order only. -/
theorem mem_sort {α κ : Type} [LinearOrder κ] {key : α → κ} {l : List α} {x : α} :
    x ∈ InPlaceMergeSorter.sort key l ↔ x ∈ l :=
  (InPlaceMergeSorter.sort_perm l).mem_iff

/-- Sorting does not matter for where labels lead. -/
theorem destsWith_sort {κ : Type} [LinearOrder κ] (key : Transition → κ) (ts : List Transition)
    (label : Int) : destsWith (InPlaceMergeSorter.sort key ts) label = destsWith ts label := by
  simp only [destsWith, mem_sort]

/-- Two intervals of which the second starts in the first one or right behind it are one. -/
theorem destsWith_merge (hdest : last.dest = t.dest) (hmin : last.min ≤ t.min)
    (hmeet : t.min ≤ last.max + 1) (label : Int) :
    destsWith [{ last with max := if t.max > last.max then t.max else last.max }] label =
      destsWith [last] label ∪ destsWith [t] label := by
  ext dest
  simp only [destsWith, mem_singleton, exists_eq_left, Set.mem_ofPred_eq, Set.mem_union, ← hdest]
  by_cases h : last.dest = dest
  · split <;> omega
  · simp [h]

/-- The number behind an interval is not beyond it when it wraps around. -/
theorem asI_succ_le {max : Int} (hlow : -2147483648 ≤ max) : asI 32 (max + 1) ≤ max + 1 := by
  obtain ⟨k, hk⟩ := asI_eq_add 32 (max + 1)
  have hhigh := (asI_range (by decide : 0 < 32) (max + 1)).2
  omega

/-- A merged transition has the labels of both. -/
theorem labelled_merge (hlast : last.Labelled) (ht : t.Labelled) :
    ({ last with max := if t.max > last.max then t.max else last.max } : Transition).Labelled := by
  unfold Transition.Labelled at *
  dsimp only
  split <;> omega

/-- Merging keeps where the labels lead to, if those with one destination come in the order of their
labels. -/
theorem destsWith_mergeAdjacent (label : Int) (hlabels : ∀ t ∈ last :: ts, t.Labelled)
    (h : (last :: ts).Pairwise fun t t' => t.dest = t'.dest → t.min ≤ t'.min) :
    destsWith (mergeAdjacent last ts) label = destsWith (last :: ts) label := by
  induction ts generalizing last with
  | nil => rfl
  | cons t ts ih =>
    rw [mergeAdjacent]
    obtain ⟨hlast, htail⟩ := pairwise_cons.mp h
    obtain ⟨hlabel, hlabels⟩ := forall_mem_cons.mp hlabels
    split
    next hmeet =>
      have hfirst := hlast t mem_cons_self hmeet.1
      have hnext : t.min ≤ last.max + 1 := hmeet.2.trans (asI_succ_le (hlabel.1.trans hlabel.2.1))
      have hrest :
        ({ last with max := if t.max > last.max then t.max else last.max } :: ts).Pairwise
          fun t t' => t.dest = t'.dest → t.min ≤ t'.min :=
        pairwise_cons.mpr ⟨fun u hu => hlast u (mem_cons_of_mem t hu), (pairwise_cons.mp htail).2⟩
      have hmerged := forall_mem_cons.mpr
        ⟨labelled_merge hlabel (hlabels t mem_cons_self), (forall_mem_cons.mp hlabels).2⟩
      rw [ih hmerged hrest, destsWith_cons, destsWith_merge hmeet.1 hfirst hnext, Set.union_assoc,
        ← destsWith_cons, ← destsWith_cons]
    next => rw [destsWith_cons, ih hlabels htail, ← destsWith_cons]

/-- Merging keeps the labels in range. -/
theorem labelled_mergeAdjacent (h : ∀ t ∈ last :: ts, t.Labelled) :
    ∀ t ∈ mergeAdjacent last ts, t.Labelled := by
  induction ts generalizing last with
  | nil => exact h
  | cons t ts ih =>
    obtain ⟨hlast, hrest⟩ := forall_mem_cons.mp h
    rw [mergeAdjacent]
    split
    · exact ih (forall_mem_cons.mpr
        ⟨labelled_merge hlast (hrest t mem_cons_self), (forall_mem_cons.mp hrest).2⟩)
    · exact forall_mem_cons.mpr ⟨hlast, ih hrest⟩

/-- What is reduced leads where the transitions lead to, and has labels as they have. -/
theorem reduce_spec (h : ∀ t ∈ ts, t.Labelled) :
    (∀ label, destsWith (reduce ts) label = destsWith ts label) ∧ ∀ t ∈ reduce ts, t.Labelled := by
  have hsorted := InPlaceMergeSorter.sort_sorted destMinMax ts
  have hlabels : ∀ t ∈ InPlaceMergeSorter.sort destMinMax ts, t.Labelled :=
    fun t ht => h t (mem_sort.mp ht)
  simp only [reduce, ← destsWith_sort destMinMax ts]
  generalize InPlaceMergeSorter.sort destMinMax ts = sorted at hsorted hlabels ⊢
  cases sorted with
  | nil => exact ⟨fun _ => rfl, hlabels⟩
  | cons t rest =>
    refine ⟨fun label => ?_, fun u hu => labelled_mergeAdjacent hlabels u (mem_sort.mp hu)⟩
    rw [destsWith_sort]
    apply destsWith_mergeAdjacent label hlabels
    apply hsorted.imp
    intro t t' hle hdest
    rw [destMinMax, destMinMax, Prod.Lex.toLex_le_toLex, Prod.Lex.toLex_le_toLex] at hle
    omega

/-- Without overlaps the intervals are apart. -/
theorem pairwise_of_noOverlap (h : noOverlap ts = true) (hlabels : ∀ t ∈ ts, t.Labelled) :
    ts.Pairwise fun t t' => t.max < t'.min := by
  induction ts with
  | nil => exact .nil
  | cons t ts ih =>
    cases ts with
    | nil => exact pairwise_singleton _ t
    | cons t' ts =>
      rw [noOverlap, Bool.and_eq_true, decide_eq_true_eq] at h
      have hrest := ih h.2 (forall_mem_cons.mp hlabels).2
      refine pairwise_cons.mpr ⟨?_, hrest⟩
      intro u hu
      rcases mem_cons.mp hu with rfl | hu
      · exact h.1
      · have hlabel := (hlabels t' (mem_cons_of_mem t mem_cons_self)).2.1
        have hafter := (pairwise_cons.mp hrest).1 u hu
        omega

/-- A transition with a label leads somewhere. -/
theorem mem_destsWith_min (h : t ∈ ts) (hlabel : t.Labelled) : t.dest ∈ destsWith ts t.min :=
  ⟨t, h, rfl, le_rfl, hlabel.2.1⟩

end

/-! ## One transition -/

/-- The same states, which lead to the same ones. -/
structure SameSteps (a a' : Automaton) : Prop where
  numStates : a'.getNumStates = a.getNumStates
  isAccept : a'.isAccept = a.isAccept
  dests : ∀ state label, destsWith (a'.transitions state) label =
    destsWith (a.transitions state) label
  empty : ∀ state, a.transitions state = [] → a'.transitions state = []

section

variable {a : Automaton}

/-- One state is reduced. -/
theorem transitions_finishCurrentState (a : Automaton) (state other : Nat) :
    (a.finishCurrentState state).transitions other =
      if state = other then reduce (a.transitions state) else a.transitions other := by
  simp only [finishCurrentState, transitions, getD_eq_getElem?_getD, getElem?_set]
  by_cases heq : state = other
  · subst heq
    rw [if_pos rfl, if_pos rfl]
    split
    · rfl
    next hout => rw [getElem?_eq_none (by omega)]; rfl
  · rw [if_neg heq, if_neg heq]

/-- A finished automaton has the same steps. -/
theorem finishState_spec (h : Valid a) : Finished a.finishState ∧ SameSteps a a.finishState := by
  rw [finishState]
  cases hcur : a.curState with
  | none => exact ⟨⟨h, hcur⟩, rfl, rfl, fun _ _ => rfl, fun _ => id⟩
  | some cur =>
    have hsame : ∀ state label, destsWith ((a.finishCurrentState cur).transitions state) label =
        destsWith (a.transitions state) label := by
      intro state label
      rw [transitions_finishCurrentState]
      split
      next heq => rw [(reduce_spec (h.labelled cur)).1, heq]
      next => rfl
    have hlabels : ∀ state, ∀ t ∈ (a.finishCurrentState cur).transitions state, t.Labelled := by
      intro state
      rw [transitions_finishCurrentState]
      split
      next => exact (reduce_spec (h.labelled cur)).2
      next => exact h.labelled state
    have hlen : (a.finishCurrentState cur).states.length = a.states.length := length_set
    refine ⟨⟨⟨?_, hlabels, ?_, ?_⟩, rfl⟩, hlen, rfl, hsame, ?_⟩
    · -- the destinations are those from before
      intro state t ht
      have hdest : t.dest ∈ destsWith ((a.finishCurrentState cur).transitions state) t.min :=
        mem_destsWith_min ht (hlabels state t ht)
      rw [hsame] at hdest
      obtain ⟨u, hu, heq, -⟩ := hdest
      rw [← heq]
      exact (h.dest_lt state u hu).trans_eq hlen.symm
    · intro state hstate
      exact (h.accept_lt state hstate).trans_eq hlen.symm
    · intro hdet state _
      obtain ⟨hold, hnew⟩ := Bool.and_eq_true_iff.mp hdet
      change ((a.finishCurrentState cur).transitions state).Pairwise _
      rw [transitions_finishCurrentState]
      split
      next => exact pairwise_of_noOverlap hnew (reduce_spec (h.labelled cur)).2
      next hne => exact h.disjoint hold state (by rw [hcur]; simpa using hne)
    · intro state hnone
      change (a.finishCurrentState cur).transitions state = []
      rw [transitions_finishCurrentState]
      split
      next heq => rw [heq, hnone]; rfl
      next => exact hnone

/-- One transition is added. -/
theorem transitions_modify (a : Automaton) (h : source < a.getNumStates) (t : Transition)
    (other : Nat) : (a.states.modify source (· ++ [t])).getD other [] =
      a.transitions other ++ if source = other then [t] else [] := by
  rw [transitions, getD_eq_getElem?_getD, getElem?_modify, getD_eq_getElem?_getD]
  split
  next heq =>
    subst heq
    rw [getElem?_eq_getElem h]
    rfl
  next =>
    rw [append_nil]
    exact congrArg (Option.getD · []) Option.map_id'

/-- A transition behind those that the current state has. -/
theorem Valid.push (h : Valid a) (hcur : a.curState = some source)
    (hsource : source < a.getNumStates) (hdest : t.dest < a.getNumStates) (hlabel : t.Labelled) :
    Valid { a with states := a.states.modify source (· ++ [t]) } := by
  have hlen : (a.states.modify source (· ++ [t])).length = a.states.length := length_modify ..
  have hmem : ∀ state, ∀ u ∈ ({ a with states := a.states.modify source (· ++ [t]) } :
      Automaton).transitions state, u ∈ a.transitions state ∨ u = t := by
    intro state u hu
    rw [transitions, transitions_modify a hsource] at hu
    rcases mem_append.mp hu with hu | hu
    · exact .inl hu
    · split at hu
      · exact .inr (mem_singleton.mp hu)
      · cases hu
  refine ⟨?_, ?_, ?_, ?_⟩
  · intro state u hu
    rw [getNumStates, hlen]
    rcases hmem state u hu with hu | rfl
    · exact h.dest_lt state u hu
    · exact hdest
  · intro state u hu
    rcases hmem state u hu with hu | rfl
    · exact h.labelled state u hu
    · exact hlabel
  · intro state hstate
    rw [getNumStates, hlen]
    exact h.accept_lt state hstate
  · intro hdet state hne
    have hother : source ≠ state := fun heq => hne (heq ▸ hcur)
    rw [transitions, transitions_modify a hsource, if_neg hother, append_nil]
    exact h.disjoint hdet state hne

/-- What there is after a transition was added. -/
structure Added (a : Automaton) (source : Nat) (t : Transition) (a' : Automaton) : Prop where
  valid : Valid a'
  curState : a'.curState = some source
  numStates : a'.getNumStates = a.getNumStates
  isAccept : a'.isAccept = a.isAccept
  dests : ∀ state label, destsWith (a'.transitions state) label =
    destsWith (a.transitions state) label ∪ if source = state then destsWith [t] label else ∅
  empty : ∀ state, source ≠ state → a.transitions state = [] → a'.transitions state = []

/-- One transition of the current state. -/
theorem Valid.added (h : Valid a) (hcur : a.curState = some source)
    (hsource : source < a.getNumStates) (hdest : t.dest < a.getNumStates) (hlabel : t.Labelled) :
    Added a source t { a with states := a.states.modify source (· ++ [t]) } where
  valid := h.push hcur hsource hdest hlabel
  curState := hcur
  numStates := length_modify ..
  isAccept := rfl
  dests state label := by
    rw [transitions, transitions_modify a hsource, destsWith_append]
    split
    · rfl
    · simp [destsWith]
  empty state hne hnone := by
    rw [transitions, transitions_modify a hsource, if_neg hne, append_nil, hnone]

/-- A transition is added. -/
theorem addTransition_spec (h : Valid a) (hsource : source < a.getNumStates)
    (hdest : t.dest < a.getNumStates) (hlabel : t.Labelled)
    (hroom : a.curState = some source ∨ a.transitions source = []) :
    ∃ a', a.addTransition source t = .ok a' ∧ Added a source t a' := by
  rw [addTransition]
  by_cases hcur : a.curState = some source
  · rw [if_pos hcur]
    exact ⟨_, rfl, h.added hcur hsource hdest hlabel⟩
  · rw [if_neg hcur]
    obtain ⟨hfinished, hsame⟩ := finishState_spec h
    have hvalid : Valid { a.finishState with curState := some source } :=
      ⟨hfinished.dest_lt, hfinished.labelled, hfinished.accept_lt,
        fun hdet state _ => hfinished.disjoint hdet state (by rw [hfinished.curState]; simp)⟩
    rw [← hsame.numStates] at hsource hdest
    have hadded := hvalid.added rfl hsource hdest hlabel
    have hempty := hsame.empty source (hroom.resolve_left hcur)
    have hget : a.finishState.states[source]? = some [] := by
      rw [getElem?_eq_getElem hsource]
      rw [transitions, getD_eq_getElem?_getD, getElem?_eq_getElem hsource] at hempty
      exact congrArg some hempty
    refine ⟨_, by dsimp only; rw [hget], ⟨hadded.valid, rfl, hadded.numStates.trans hsame.numStates,
      hsame.isAccept, ?_, fun state hne hnone => hadded.empty state hne (hsame.empty state hnone)⟩⟩
    intro state label
    rw [hadded.dests, ← hsame.dests]
    rfl

end

/-! ## Many transitions -/

/-- Entries that come in the order of their sources are all added. -/
theorem addTransitions_spec {a : Automaton} (h : Valid a) {entries : List (Nat × Transition)}
    (hsorted : entries.Pairwise fun e e' => e.1 ≤ e'.1)
    (hentries : ∀ e ∈ entries, e.1 < a.getNumStates ∧ e.2.dest < a.getNumStates ∧ e.2.Labelled)
    (hcur : ∀ cur, a.curState = some cur → ∀ e ∈ entries, cur ≤ e.1)
    (hroom : ∀ e ∈ entries, a.curState = some e.1 ∨ a.transitions e.1 = []) :
    ∃ a', entries.foldlM (fun a (source, t) => a.addTransition source t) a = .ok a' ∧ Valid a' ∧
      a'.getNumStates = a.getNumStates ∧ a'.isAccept = a.isAccept ∧
      ∀ state label dest, dest ∈ destsWith (a'.transitions state) label ↔
        dest ∈ destsWith (a.transitions state) label ∨
          ∃ t, (state, t) ∈ entries ∧ dest ∈ destsWith [t] label := by
  induction entries generalizing a with
  | nil => exact ⟨a, rfl, h, rfl, rfl, by simp⟩
  | cons e entries ih =>
    obtain ⟨hsource, hdest, hlabel⟩ := hentries e mem_cons_self
    obtain ⟨hfirst, htail⟩ := pairwise_cons.mp hsorted
    obtain ⟨a₁, hrun, hadded⟩ := addTransition_spec h hsource hdest hlabel (hroom e mem_cons_self)
    have hroom₁ : ∀ e' ∈ entries, a₁.curState = some e'.1 ∨ a₁.transitions e'.1 = [] := by
      intro e' he'
      by_cases heq : e.1 = e'.1
      · exact .inl (hadded.curState.trans (congrArg some heq))
      · right
        apply hadded.empty _ heq
        apply (hroom e' (mem_cons_of_mem e he')).resolve_left
        -- the current state is not behind the first entry
        intro hstate
        have hle := hcur _ hstate e mem_cons_self
        have hge := hfirst e' he'
        omega
    obtain ⟨a', hrest, hvalid, hnum, haccept, hdests⟩ := ih hadded.valid htail
      (fun e' he' => hadded.numStates.symm ▸ hentries e' (mem_cons_of_mem e he'))
      (fun cur heq e' he' => by
        rw [hadded.curState, Option.some.injEq] at heq
        exact heq ▸ hfirst e' he') hroom₁
    refine ⟨a', ?_, hvalid, hnum.trans hadded.numStates, haccept.trans hadded.isAccept, ?_⟩
    · rw [foldlM_cons]
      dsimp only
      rw [hrun, ok_bind, hrest]
    · intro state label dest
      rw [hdests, hadded.dests, Set.mem_union, or_assoc]
      apply or_congr_right
      constructor
      · rintro (hnew | ⟨t, ht, hin⟩)
        · split at hnew
          next heq => exact ⟨e.2, heq ▸ mem_cons_self, hnew⟩
          next => cases hnew
        · exact ⟨t, mem_cons_of_mem e ht, hin⟩
      · rintro ⟨t, ht, hin⟩
        rcases mem_cons.mp ht with rfl | ht
        · exact .inl (by rwa [if_pos rfl])
        · exact .inr ⟨t, ht, hin⟩

end Automaton

/-- The automaton of a builder has the states, accepted ones and transitions of the builder. -/
theorem Builder.Valid.finish {builder : Builder} (h : builder.Valid) :
    ∃ a, builder.finish = .ok a ∧ a.Finished ∧ a.getNumStates = builder.numStates ∧
      a.isAccept = builder.isAccept ∧ ∀ state label dest, dest ∈ a.nfa.step state label ↔
        ∃ t, (state, t) ∈ builder.transitions ∧ dest ∈ Automaton.destsWith [t] label := by
  have hlen : (replicate builder.numStates ([] : List Transition)).length = builder.numStates :=
    length_replicate
  have hnone : ∀ state, (replicate builder.numStates ([] : List Transition)).getD state [] =
    [] := by
    intro state
    rw [getD_eq_getElem?_getD, getElem?_replicate]
    split <;> rfl
  have hfilter : builder.isAccept.filter (· < builder.numStates) = builder.isAccept :=
    Finset.filter_true_of_mem h.accept_lt
  have hvalid : Automaton.Valid ⟨none, replicate builder.numStates [], builder.isAccept, true⟩ := by
    refine ⟨?_, ?_, fun state hin => (h.accept_lt state hin).trans_eq hlen.symm, ?_⟩ <;> intro state
    · intro t ht
      rw [Automaton.transitions, hnone] at ht
      cases ht
    · intro t ht
      rw [Automaton.transitions, hnone] at ht
      cases ht
    · intro state _
      rw [Automaton.transitions, hnone]
      exact .nil
  have hsorted : (InPlaceMergeSorter.sort Builder.sourceMinMaxDest builder.transitions).Pairwise
      fun e e' => e.1 ≤ e'.1 := by
    apply (InPlaceMergeSorter.sort_sorted Builder.sourceMinMaxDest builder.transitions).imp
    intro e e' hle
    rw [Builder.sourceMinMaxDest, Builder.sourceMinMaxDest, Prod.Lex.toLex_le_toLex] at hle
    omega
  obtain ⟨a, hrun, hbuilt, hnum, hacc, hdests⟩ := Automaton.addTransitions_spec hvalid hsorted
    (fun e he => by
      have hin := Automaton.mem_sort.mp he
      rw [Automaton.getNumStates, hlen]
      exact ⟨h.source_lt e hin, h.dest_lt e hin, h.labelled e hin⟩)
    nofun (fun e _ => .inr (hnone e.1))
  obtain ⟨hfinished, hsame⟩ := Automaton.finishState_spec hbuilt
  refine ⟨a.finishState, ?_, hfinished, hsame.numStates.trans (hnum.trans hlen),
    hsame.isAccept.trans hacc, ?_⟩
  · rw [Builder.finish, hfilter]
    rw [hrun]
    rfl
  · intro state label dest
    change dest ∈ Automaton.destsWith (a.finishState.transitions state) label ↔ _
    rw [hsame.dests, hdests, Automaton.transitions, hnone]
    simp [Automaton.destsWith, Automaton.mem_sort]

/-! ## Builders that are used as they should be -/

namespace Builder

variable {b : Builder}

theorem valid_new : new.Valid :=
  ⟨by simp [new], by simp [new], by simp [new], by simp [new]⟩

/-- A state is added. -/
theorem Valid.createState (h : b.Valid) : b.createState.Valid where
  accept_lt state hin := Nat.lt_succ_of_lt (h.accept_lt state hin)
  source_lt e he := Nat.lt_succ_of_lt (h.source_lt e he)
  dest_lt e he := Nat.lt_succ_of_lt (h.dest_lt e he)
  labelled := h.labelled

/-- A state accepts, or not. -/
theorem Valid.setAccept (h : b.Valid) {state : Nat} (hstate : state < b.numStates) (accept : Bool) :
    (b.setAccept state accept).Valid := by
  refine { h with accept_lt := fun other hin => ?_ }
  simp only [Builder.setAccept] at hin
  split at hin
  · rcases Finset.mem_insert.mp hin with rfl | hin
    · exact hstate
    · exact h.accept_lt other hin
  · exact h.accept_lt other (Finset.mem_of_mem_erase hin)

/-- A transition is added. -/
theorem Valid.addTransition (h : b.Valid) (hsource : source < b.numStates)
    (hdest : t.dest < b.numStates) (hlabel : t.Labelled) : (b.addTransition source t).Valid where
  accept_lt := h.accept_lt
  source_lt := forall_mem_append.mpr ⟨h.source_lt, forall_mem_singleton.mpr hsource⟩
  dest_lt := forall_mem_append.mpr ⟨h.dest_lt, forall_mem_singleton.mpr hdest⟩
  labelled := forall_mem_append.mpr ⟨h.labelled, forall_mem_singleton.mpr hlabel⟩

/-- Many transitions of states that are there. -/
theorem Valid.foldl_addTransition (h : b.Valid) (entries : List (Nat × Transition))
    (hentries : ∀ e ∈ entries, e.1 < b.numStates ∧ e.2.dest < b.numStates ∧ e.2.Labelled) :
    (entries.foldl (fun b (source, t) => b.addTransition source t) b).Valid ∧
    entries.foldl (fun b (source, t) => b.addTransition source t) b =
      { b with transitions := b.transitions ++ entries } := by
  induction entries generalizing b with
  | nil => exact ⟨h, by simp⟩
  | cons e entries ih =>
    obtain ⟨hsource, hdest, hlabel⟩ := hentries e mem_cons_self
    obtain ⟨hvalid, heq⟩ := ih (h.addTransition hsource hdest hlabel)
      fun e' he' => hentries e' (mem_cons_of_mem e he')
    refine ⟨hvalid, heq.trans ?_⟩
    simp only [Builder.addTransition, append_assoc, cons_append, nil_append]

/-- Some states are added. -/
theorem iterate_createState (n : Nat) : (createState^[n] new).Valid ∧
    createState^[n] new = ⟨n, ∅, []⟩ := by
  induction n with
  | zero => exact ⟨valid_new, rfl⟩
  | succ n ih =>
    rw [Function.iterate_succ_apply']
    exact ⟨ih.1.createState, by rw [ih.2]; rfl⟩

/-- What is built accepts with the transitions as they were added. -/
theorem language_finish (b : Builder) (h : b.Valid) :
    ∃ a, b.finish = .ok a ∧ a.Finished ∧ a.language = NFA.accepts ⟨fun s label =>
      {r | ∃ t, (s, t) ∈ b.transitions ∧ r ∈ Automaton.destsWith [t] label}, {0}, b.isAccept⟩ := by
  obtain ⟨a, hrun, hfinished, -, hacc, hstep⟩ := h.finish
  refine ⟨a, hrun, hfinished, congrArg NFA.accepts ?_⟩
  rw [← hacc]
  exact congrArg (NFA.mk · {0} _) (funext₂ fun s label => Set.ext (hstep s label))

/-- Two overlapping transitions, the second of which comes first and ends with the last label. -/
def overlapping : Builder :=
  ((new.createState.createState.setAccept 1 true).addTransition 0
    ⟨1, 5, 2147483647⟩).addTransition 0 ⟨1, 3, 6⟩

/-- Two transitions that overlap. -/
theorem language_finish_overlapping : overlapping.Valid ∧
    ∃ a, overlapping.finish = .ok a ∧ a.Finished ∧ a.language = NFA.accepts ⟨fun s label =>
      {r | ∃ t, (s, t) ∈ [(0, ⟨1, 5, 2147483647⟩), (0, ⟨1, 3, 6⟩)] ∧
        r ∈ Automaton.destsWith [t] label}, {0}, {state | state ∈ ({1} : Finset Nat)}⟩ := by
  have hvalid : overlapping.Valid :=
    ((valid_new.createState.createState.setAccept (by decide) true).addTransition (by decide)
      (by decide) (by decide)).addTransition (by decide) (by decide) (by decide)
  exact ⟨hvalid, overlapping.language_finish hvalid⟩

end Builder

end RLucene.Util.Automation
