import Mathlib.Data.List.DropRight
import Mathlib.Data.Set.Insert

/-!
# Frontiers

Elements have a gain and a cost. A frontier of a set is a list of its elements, increasing in both,
such that for every element there is one of at least its gain and at most its cost. A frontier is
kept up to date by inserting one element at a time (`IsFrontier.insert_split`), or found in one pass
over elements of increasing cost (`isFrontier_records`).
-/

namespace RLucene.Lib

open List

variable {α F C : Type} [LinearOrder F] [LinearOrder C] {gain : α → F} {cost : α → C}
  {seen seen' : Set α} {l : List α} {e : α}

/-- At least the gain, and at most the cost. -/
def Dominates (gain : α → F) (cost : α → C) (a b : α) : Prop :=
  gain b ≤ gain a ∧ cost a ≤ cost b

theorem Dominates.refl (a : α) : Dominates gain cost a a :=
  ⟨le_rfl, le_rfl⟩

theorem Dominates.trans {a b c : α} (hab : Dominates gain cost a b)
    (hbc : Dominates gain cost b c) : Dominates gain cost a c :=
  ⟨hbc.1.trans hab.1, hab.2.trans hbc.2⟩

/-- The list has the elements that matter, of those that were seen. -/
structure IsFrontier (gain : α → F) (cost : α → C) (seen : Set α) (l : List α) : Prop where
  mem : ∀ a ∈ l, a ∈ seen
  increasing : l.Pairwise fun a b => gain a < gain b ∧ cost a < cost b
  dominated : ∀ a ∈ seen, ∃ b ∈ l, Dominates gain cost b a

theorem isFrontier_nil : IsFrontier gain cost ∅ ([] : List α) :=
  ⟨by simp, .nil, by simp⟩

theorem isFrontier_nil_iff : IsFrontier gain cost seen [] ↔ seen = ∅ := by
  constructor
  · intro h
    refine Set.eq_empty_of_forall_notMem fun a ha => ?_
    obtain ⟨b, hb, -⟩ := h.dominated a ha
    exact not_mem_nil hb
  · rintro rfl
    exact isFrontier_nil

/-- Elements that are dominated by others do not matter. -/
theorem IsFrontier.enlarge (h : IsFrontier gain cost seen l) (hsub : seen ⊆ seen')
    (hdominated : ∀ a ∈ seen', ∃ b ∈ seen, Dominates gain cost b a) :
    IsFrontier gain cost seen' l where
  mem a ha := hsub (h.mem a ha)
  increasing := h.increasing
  dominated a ha := by
    obtain ⟨b, hb, hba⟩ := hdominated a ha
    obtain ⟨c, hc, hcb⟩ := h.dominated b hb
    exact ⟨c, hc, hcb.trans hba⟩

/-- An element that is dominated changes nothing. -/
theorem IsFrontier.insert_dominated (h : IsFrontier gain cost seen l) {b : α} (hb : b ∈ l)
    (hdominates : Dominates gain cost b e) : IsFrontier gain cost (insert e seen) l := by
  refine h.enlarge (Set.subset_insert e seen) fun a ha => ?_
  obtain rfl | ha := ha
  · exact ⟨b, h.mem b hb, hdominates⟩
  · exact ⟨a, ha, .refl a⟩

/-- The new element takes the place of those it dominates, between those of less cost and those of
more gain. -/
theorem IsFrontier.insert_split {kept removed after : List α}
    (h : IsFrontier gain cost seen (kept ++ removed ++ after))
    (hkept : ∀ a ∈ kept, gain a < gain e ∧ cost a < cost e)
    (hremoved : ∀ a ∈ removed, Dominates gain cost e a)
    (hafter : ∀ a ∈ after, gain e < gain a ∧ cost e < cost a) :
    IsFrontier gain cost (insert e seen) (kept ++ e :: after) where
  mem a ha := by
    rcases mem_append.mp ha with ha | ha
    · exact Or.inr (h.mem a (by simp [ha]))
    · rcases mem_cons.mp ha with rfl | ha
      · exact Or.inl rfl
      · exact Or.inr (h.mem a (by simp [ha]))
  increasing := by
    obtain ⟨hleft, hright, hacross⟩ := pairwise_append.mp h.increasing
    refine pairwise_append.mpr ⟨(pairwise_append.mp hleft).1, .cons hafter hright, ?_⟩
    intro a ha b hb
    rcases mem_cons.mp hb with rfl | hb
    · exact hkept a ha
    · exact hacross a (mem_append_left _ ha) b hb
  dominated a ha := by
    obtain rfl | ha := ha
    · exact ⟨a, by simp, .refl a⟩
    · obtain ⟨b, hb, hba⟩ := h.dominated a ha
      rcases mem_append.mp hb with hb | hb
      · rcases mem_append.mp hb with hb | hb
        · exact ⟨b, by simp [hb], hba⟩
        · exact ⟨e, by simp, (hremoved b hb).trans hba⟩
      · exact ⟨b, by simp [hb], hba⟩

/-- What is dropped at the end of a list, and what is left of it. -/
theorem rdropWhile_spec (p : α → Bool) (l : List α) :
    ∃ removed, l = l.rdropWhile p ++ removed ∧ ∀ a ∈ removed, p a = true := by
  refine ⟨(l.reverse.takeWhile p).reverse, ?_, ?_⟩
  · rw [List.rdropWhile, ← reverse_append, takeWhile_append_dropWhile, reverse_reverse]
  · intro a ha
    exact mem_takeWhile_imp (mem_reverse.mp ha)

theorem not_of_mem_rdropWhile {p : α → Bool} (hmono : l.Pairwise fun a b => p a = true → p b = true)
    {a : α} (ha : a ∈ l.rdropWhile p) : p a = false := by
  induction l using List.reverseRecOn with
  | nil => simp [List.rdropWhile] at ha
  | append_singleton l x ih =>
    obtain ⟨hinit, -, hlast⟩ := pairwise_append.mp hmono
    rw [rdropWhile_concat] at ha
    split at ha
    · exact ih hinit ha
    next hx =>
      rcases mem_append.mp ha with ha | ha
      · by_contra hp
        exact hx (hlast a ha x mem_cons_self (by simpa using hp))
      · rw [mem_singleton.mp ha]
        simpa using hx

/-- The elements of more gain than all before them, and than a bound. -/
def records (gain : α → F) : F → List α → List α
  | _, [] => []
  | bound, a :: l => if bound < gain a then a :: records gain (gain a) l else records gain bound l

/-- One step of the pass that finds the records. -/
def recordStep (gain : α → F) (state : List α × F) (a : α) : List α × F :=
  if state.2 < gain a then (state.1 ++ [a], gain a) else state

/-- One pass finds the records. -/
theorem foldl_recordStep (l found : List α) (bound : F) :
    (l.foldl (recordStep gain) (found, bound)).1 = found ++ records gain bound l := by
  induction l generalizing found bound with
  | nil => simp [records]
  | cons a l ih =>
    rw [foldl_cons, recordStep, records]
    split
    · rw [ih, append_assoc, singleton_append]
    · exact ih found bound

theorem foldl_recordStep_of_le {state : List α × F} (h : ∀ a ∈ l, gain a ≤ state.2) :
    l.foldl (recordStep gain) state = state := by
  induction l with
  | nil => rfl
  | cons a l ih =>
    rw [foldl_cons, recordStep, if_neg (not_lt.mpr (h a mem_cons_self))]
    exact ih (forall_mem_cons.mp h).2

/-- The records are the frontier. -/
theorem isFrontier_records (hcost : l.Pairwise fun a b => cost a < cost b) (bound : F) :
    IsFrontier gain cost {a | a ∈ l ∧ bound < gain a} (records gain bound l) := by
  induction l generalizing bound with
  | nil => exact ⟨by simp [records], .nil, by simp⟩
  | cons a l ih =>
    obtain ⟨hless, htail⟩ := pairwise_cons.mp hcost
    rw [records]
    split
    next hgain =>
      have hrec := ih htail (gain a)
      refine ⟨?_, .cons (fun b hb => ⟨(hrec.mem b hb).2, hless b (hrec.mem b hb).1⟩)
        hrec.increasing, ?_⟩
      · exact forall_mem_cons.mpr ⟨⟨mem_cons_self, hgain⟩, fun b hb =>
          ⟨mem_cons_of_mem _ (hrec.mem b hb).1, hgain.trans (hrec.mem b hb).2⟩⟩
      · rintro b ⟨hb, -⟩
        rcases mem_cons.mp hb with rfl | hb
        · exact ⟨b, mem_cons_self, .refl b⟩
        · rcases le_or_gt (gain b) (gain a) with hle | hgt
          · exact ⟨a, mem_cons_self, hle, (hless b hb).le⟩
          · obtain ⟨c, hc, hcb⟩ := hrec.dominated b ⟨hb, hgt⟩
            exact ⟨c, mem_cons_of_mem _ hc, hcb⟩
    next hgain =>
      have hsame : {b | b ∈ a :: l ∧ bound < gain b} = {b | b ∈ l ∧ bound < gain b} := by
        ext b
        constructor
        · rintro ⟨hb, hbound⟩
          rcases mem_cons.mp hb with rfl | hb
          · exact absurd hbound hgain
          · exact ⟨hb, hbound⟩
        · rintro ⟨hb, hbound⟩
          exact ⟨mem_cons_of_mem _ hb, hbound⟩
      rw [hsame]
      exact ih htail bound

end RLucene.Lib
