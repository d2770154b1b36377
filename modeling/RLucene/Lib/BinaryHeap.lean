import Mathlib.Data.List.Perm.Basic

/-!
# Binary heaps

A binary heap in a list, ordered by a comparison. The children of position `i` stand at `2 * i + 1`
and `2 * i + 2`. `Ordered lt k h` says that no element is less than its parent, for all parents from
position `k` on: a heap is ordered from position zero, and sifting an element down at `i` turns a
list that is ordered from `i + 1` into one that is ordered from `i`.

The comparison is a parameter of every operation, so it may look at a state outside of the heap.
-/

namespace RLucene.Lib

open List

/-- The laws of a comparison: a strict order in which elements that do not compare are alike. -/
structure IsComparison {α : Type} (lt : α → α → Bool) : Prop where
  asymm : ∀ {a b}, lt a b = true → lt b a = false
  notLess_trans : ∀ {a b c}, lt a b = false → lt b c = false → lt a c = false

theorem IsComparison.irrefl {α : Type} {lt : α → α → Bool} (h : IsComparison lt) (a : α) :
    lt a a = false := by
  cases haa : lt a a with
  | false => rfl
  | true => exact (haa.symm.trans (h.asymm haa)).symm ▸ rfl

/-- Comparing by a number. -/
theorem isComparison_lt {α : Type} (f : α → Int) : IsComparison fun a b => decide (f a < f b) where
  asymm := by
    intro a b h
    simp only [decide_eq_true_eq, decide_eq_false_iff_not] at *
    omega
  notLess_trans := by
    intro a b c h h'
    simp only [decide_eq_false_iff_not] at *
    omega

variable {i j k c : Nat}

namespace BinaryHeap

variable {α : Type} (lt : α → α → Bool)

/-- Where the parent of an entry is. -/
def parent (i : Nat) : Nat :=
  (i - 1) / 2

/-- Two entries change places. -/
def swap (h : List α) (i j : Nat) : List α :=
  match h[i]?, h[j]? with
  | some a, some b => (h.set i b).set j a
  | _, _ => h

/-- Move the element at `i` up as long as it is less than its parent. -/
def upHeap : Nat → List α → Nat → List α
  | 0, h, _ => h
  | fuel + 1, h, i =>
    if i = 0 then h
    else
      match h[i]?, h[parent i]? with
      | some node, some above =>
        if lt node above then upHeap fuel (swap h i (parent i)) (parent i) else h
      | _, _ => h

/-- The lesser of the children of `i`, the left one if they are alike. -/
def lesserChild (h : List α) (i : Nat) : Option Nat :=
  match h[2 * i + 1]?, h[2 * i + 2]? with
  | none, _ => none
  | some _, none => some (2 * i + 1)
  | some l, some r => if lt r l then some (2 * i + 2) else some (2 * i + 1)

/-- Move the element at `i` down as long as a child is less. -/
def downHeap : Nat → List α → Nat → List α
  | 0, h, _ => h
  | fuel + 1, h, i =>
    match lesserChild lt h i with
    | none => h
    | some c =>
      match h[c]?, h[i]? with
      | some child, some node =>
        if lt child node then downHeap fuel (swap h i c) c else h
      | _, _ => h

/-- Add an element. -/
def add (h : List α) (a : α) : List α :=
  upHeap lt (h.length + 1) (h ++ [a]) h.length

/-- Sift the top down after it has changed. -/
def updateTop (h : List α) : List α :=
  downHeap lt h.length h 0

/-- Take the top out: the last element takes its place. -/
def pop (h : List α) : List α :=
  updateTop lt (swap h 0 (h.length - 1)).dropLast

theorem parent_lt (hi : 0 < i) : parent i < i := by
  unfold parent
  omega

/-! ## Swapping -/

/-- An entry after two changed places. -/
theorem getElem?_swap {h : List α} (hi : i < h.length) (hj : j < h.length) (k : Nat) :
    (swap h i j)[k]? = if k = j then h[i]? else if k = i then h[j]? else h[k]? := by
  unfold swap
  rw [getElem?_eq_getElem hi, getElem?_eq_getElem hj]
  by_cases hkj : k = j
  · subst hkj
    simp [hj]
  · by_cases hki : k = i
    · subst hki
      simp [hi, hkj, Ne.symm hkj]
    · simp [hkj, hki, Ne.symm hkj, Ne.symm hki]

theorem length_swap (h : List α) (i j : Nat) : (swap h i j).length = h.length := by
  unfold swap
  split <;> simp

theorem swap_perm (h : List α) (i j : Nat) : (swap h i j).Perm h := by
  unfold swap
  split
  · rename_i a b ha hb
    obtain ⟨hi, rfl⟩ := List.getElem_of_getElem? ha
    obtain ⟨hj, rfl⟩ := List.getElem_of_getElem? hb
    exact set_set_perm hi hj
  · exact List.Perm.refl _

/-! ## Order -/

/-- No element is less than its parent, for parents from `k` on. -/
def Ordered (k : Nat) (h : List α) : Prop :=
  ∀ i a b, 0 < i → k ≤ parent i → h[i]? = some a → h[parent i]? = some b → lt a b = false

/-- The only parent from `k` on that may be out of order is `i`, and what is below `i` is in order
with what is above it. -/
structure DownReady (k i : Nat) (h : List α) : Prop where
  other : ∀ j a b, 0 < j → k ≤ parent j → parent j ≠ i → h[j]? = some a → h[parent j]? = some b →
    lt a b = false
  across : ∀ j a b, 0 < j → parent j = i → 0 < i → k ≤ parent i → h[j]? = some a →
    h[parent i]? = some b → lt a b = false

/-- The only element that may be less than its parent is the one at `i`. -/
structure UpReady (i : Nat) (h : List α) : Prop where
  other : ∀ j a b, 0 < j → j ≠ i → h[j]? = some a → h[parent j]? = some b → lt a b = false
  across : ∀ j a b, 0 < j → parent j = i → 0 < i → h[j]? = some a → h[parent i]? = some b →
    lt a b = false

variable {lt} {h : List α}

/-- A heap with another top can be repaired downwards. -/
theorem Ordered.downReady (hord : Ordered lt (k + 1) h) : DownReady lt k k h := by
  refine ⟨fun j a b hj hk hne => hord j a b hj (by omega), ?_⟩
  intro j a b _ _ hpos hk
  unfold parent at hk
  omega

theorem lesserChild_eq_none (hnone : lesserChild lt h i = none) : h.length ≤ 2 * i + 1 := by
  unfold lesserChild at hnone
  split at hnone
  · rename_i hl
    exact List.getElem?_eq_none_iff.mp hl
  · cases hnone
  · split at hnone <;> cases hnone

/-- The child that is chosen is a child, and no child is less. -/
theorem lesserChild_spec (hlt : IsComparison lt) (hc : lesserChild lt h i = some c) :
    c < h.length ∧ 0 < c ∧ parent c = i ∧
      ∀ j a b, 0 < j → parent j = i → h[j]? = some a → h[c]? = some b → lt a b = false := by
  have hchildren : ∀ j, 0 < j → parent j = i → j = 2 * i + 1 ∨ j = 2 * i + 2 := by
    intro j hj hparent
    unfold parent at hparent
    omega
  have hleft : parent (2 * i + 1) = i := by
    unfold parent
    omega
  have hright : parent (2 * i + 2) = i := by
    unfold parent
    omega
  unfold lesserChild at hc
  split at hc
  · cases hc
  · rename_i l hl hnone
    cases hc
    refine ⟨(List.getElem_of_getElem? hl).1, by omega, hleft, fun j a b hj hparent ha hb => ?_⟩
    rcases hchildren j hj hparent with rfl | rfl
    · rw [Option.some.inj (ha.symm.trans hb)]
      exact hlt.irrefl b
    · rw [hnone] at ha
      cases ha
  · rename_i l r hl hr
    split at hc
    · rename_i hless
      cases hc
      refine ⟨(List.getElem_of_getElem? hr).1, by omega, hright, fun j a b hj hparent ha hb => ?_⟩
      rw [Option.some.inj (hb.symm.trans hr)]
      rcases hchildren j hj hparent with rfl | rfl
      · rw [Option.some.inj (ha.symm.trans hl)]
        exact hlt.asymm hless
      · rw [Option.some.inj (ha.symm.trans hr)]
        exact hlt.irrefl r
    · rename_i hless
      cases hc
      refine ⟨(List.getElem_of_getElem? hl).1, by omega, hleft, fun j a b hj hparent ha hb => ?_⟩
      rw [Option.some.inj (hb.symm.trans hl)]
      rcases hchildren j hj hparent with rfl | rfl
      · rw [Option.some.inj (ha.symm.trans hl)]
        exact hlt.irrefl l
      · rw [Option.some.inj (ha.symm.trans hr)]
        exact Bool.not_eq_true _ ▸ hless

/-! ## Sifting down -/

/-- An entry that is not behind its children is in its place. -/
theorem DownReady.finish (hready : DownReady lt k i h)
    (hchildren : ∀ j a b, 0 < j → parent j = i → h[j]? = some a → h[i]? = some b → lt a b = false) :
    Ordered lt k h := by
  intro j a b hj hk ha hb
  by_cases hparent : parent j = i
  · exact hchildren j a b hj hparent ha (hparent ▸ hb)
  · exact hready.other j a b hj hk hparent ha hb

variable {node : α}

/-- One move down. -/
theorem DownReady.move (hlt : IsComparison lt) (hready : DownReady lt k i h) (hki : k ≤ i)
    (hc : lesserChild lt h i = some c) {child : α} (hnode : h[i]? = some node)
    (hchild : h[c]? = some child) (hless : lt child node = true) :
    DownReady lt k c (swap h i c) := by
  obtain ⟨hclt, hcpos, hcparent, hleast⟩ := lesserChild_spec hlt hc
  have hi : i < h.length := (List.getElem_of_getElem? hnode).1
  have hic : i < c := hcparent ▸ parent_lt hcpos
  have hget := getElem?_swap hi hclt
  refine ⟨fun j a b hj hk hne ha hb => ?_, fun j a b hj hparent _ _ ha hb => ?_⟩
  · rw [hget] at ha hb
    have hpj := parent_lt hj
    rw [if_neg hne] at hb
    by_cases hji : parent j = i
    · -- a child of `i`, which now holds the lesser child
      rw [if_pos hji, hchild] at hb
      cases hb
      by_cases hjc : j = c
      · rw [if_pos hjc, hnode] at ha
        cases ha
        exact hlt.asymm hless
      · rw [if_neg hjc, if_neg (by omega)] at ha
        exact hleast j a _ hj hji ha hchild
    · rw [if_neg hji] at hb
      by_cases hjc : j = c
      · exact absurd (hjc ▸ hcparent) hji
      · rw [if_neg hjc] at ha
        by_cases hjeq : j = i
        · -- the lesser child has come below the parent of `i`
          rw [if_pos hjeq, hchild] at ha
          cases ha
          rw [hjeq] at hb hj hk
          exact hready.across c _ b hcpos hcparent hj hk hchild hb
        · rw [if_neg hjeq] at ha
          exact hready.other j a b hj hk hji ha hb
  · rw [hget] at ha hb
    have hjc : j ≠ c := by
      unfold parent at hparent
      omega
    have hji : j ≠ i := by
      unfold parent at hparent
      omega
    rw [if_neg hjc, if_neg hji] at ha
    rw [hcparent, if_neg (by omega), if_pos rfl, hchild] at hb
    cases hb
    exact hready.other j a _ hj (by omega) (by omega) ha (hparent ▸ hchild)

/-- Moving down keeps the elements. -/
theorem downHeap_perm (fuel : Nat) (h : List α) (i : Nat) : (downHeap lt fuel h i).Perm h := by
  induction fuel generalizing h i with
  | zero => exact List.Perm.refl _
  | succ fuel ih =>
    unfold downHeap
    split
    · exact List.Perm.refl _
    · split
      · split
        · exact (ih _ _).trans (swap_perm _ _ _)
        · exact List.Perm.refl _
      · exact List.Perm.refl _

/-- Moving down repairs the order. -/
theorem downHeap_ordered (hlt : IsComparison lt) (fuel : Nat) (hready : DownReady lt k i h)
    (hki : k ≤ i) (hfuel : h.length ≤ fuel + i) : Ordered lt k (downHeap lt fuel h i) := by
  induction fuel generalizing h i with
  | zero =>
    refine hready.finish fun j a b _ _ _ hb => ?_
    have := (List.getElem_of_getElem? hb).1
    omega
  | succ fuel ih =>
    unfold downHeap
    split
    · rename_i hnone
      have hlen := lesserChild_eq_none hnone
      refine hready.finish fun j a b hj hparent ha _ => ?_
      have := (List.getElem_of_getElem? ha).1
      unfold parent at hparent
      omega
    · rename_i c hc
      obtain ⟨hclt, hcpos, hcparent, hleast⟩ := lesserChild_spec hlt hc
      have hic : i < c := hcparent ▸ parent_lt hcpos
      split
      · rename_i child node hchild hnode
        split
        · rename_i hless
          refine ih (hready.move hlt hki hc hnode hchild hless) (by omega) ?_
          rw [length_swap]
          omega
        · rename_i hless
          refine hready.finish fun j a b hj hparent ha hb => ?_
          rw [hnode] at hb
          cases hb
          exact hlt.notLess_trans (hleast j a child hj hparent ha hchild)
            (Bool.not_eq_true _ ▸ hless)
      · rename_i hnone
        exact absurd (getElem?_eq_getElem (show i < h.length by omega))
          (hnone _ _ (getElem?_eq_getElem hclt))

/-! ## Sifting up -/

/-- An entry that is not before its parent is in its place. -/
theorem UpReady.finish (hready : UpReady lt i h)
    (hlast : ∀ a b, 0 < i → h[i]? = some a → h[parent i]? = some b → lt a b = false) :
    Ordered lt 0 h := by
  intro j a b hj _ ha hb
  by_cases hji : j = i
  · subst hji
    exact hlast a b hj ha hb
  · exact hready.other j a b hj hji ha hb

/-- One move up. -/
theorem UpReady.move (hlt : IsComparison lt) (hready : UpReady lt i h) (hi : 0 < i) {above : α}
    (hnode : h[i]? = some node) (habove : h[parent i]? = some above)
    (hless : lt node above = true) : UpReady lt (parent i) (swap h i (parent i)) := by
  have hilt : i < h.length := (List.getElem_of_getElem? hnode).1
  have hplt : parent i < h.length := (List.getElem_of_getElem? habove).1
  have hpi := parent_lt hi
  have hget := getElem?_swap hilt hplt
  refine ⟨fun j a b hj hne ha hb => ?_, fun j a b hj hparent hpos ha hb => ?_⟩
  · rw [hget, if_neg hne] at ha
    rw [hget] at hb
    by_cases hji : j = i
    · rw [if_pos hji, habove] at ha
      rw [hji, if_pos rfl, hnode] at hb
      cases ha
      cases hb
      exact hlt.asymm hless
    · rw [if_neg hji] at ha
      by_cases hsibling : parent j = parent i
      · rw [if_pos hsibling, hnode] at hb
        cases hb
        exact hlt.notLess_trans (hready.other j a above hj hji ha (hsibling ▸ habove))
          (hlt.asymm hless)
      · rw [if_neg hsibling] at hb
        by_cases hchild : parent j = i
        · rw [if_pos hchild, habove] at hb
          cases hb
          exact hready.across j a _ hj hchild hi ha habove
        · rw [if_neg hchild] at hb
          exact hready.other j a b hj hji ha hb
  · have hpp := parent_lt hpos
    rw [hget, if_neg (by omega), if_neg (by omega)] at hb
    have htop : lt above b = false := hready.other (parent i) above b hpos (by omega) habove hb
    have hjne : j ≠ parent i := by
      unfold parent at hparent hpos ⊢
      omega
    rw [hget, if_neg hjne] at ha
    by_cases hji : j = i
    · rw [if_pos hji, habove] at ha
      cases ha
      exact htop
    · rw [if_neg hji] at ha
      exact hlt.notLess_trans (hready.other j a above hj hji ha (hparent ▸ habove)) htop

/-- Moving up keeps the elements. -/
theorem upHeap_perm (fuel : Nat) (h : List α) (i : Nat) : (upHeap lt fuel h i).Perm h := by
  induction fuel generalizing h i with
  | zero => exact List.Perm.refl _
  | succ fuel ih =>
    unfold upHeap
    split
    · exact List.Perm.refl _
    · split
      · split
        · exact (ih _ _).trans (swap_perm _ _ _)
        · exact List.Perm.refl _
      · exact List.Perm.refl _

/-- Moving up repairs the order. -/
theorem upHeap_ordered (hlt : IsComparison lt) (fuel : Nat) (hready : UpReady lt i h)
    (hi : i < h.length) (hfuel : i < fuel) : Ordered lt 0 (upHeap lt fuel h i) := by
  induction fuel generalizing h i with
  | zero => omega
  | succ fuel ih =>
    unfold upHeap
    split
    · rename_i hzero
      exact hready.finish fun _ _ hpos => absurd hzero (by omega)
    · rename_i hpos
      have hpi := parent_lt (Nat.pos_of_ne_zero hpos)
      have hplt : parent i < h.length := by omega
      rw [getElem?_eq_getElem hi, getElem?_eq_getElem hplt]
      dsimp only
      split
      · rename_i hless
        refine ih (hready.move hlt (by omega) (getElem?_eq_getElem hi)
          (getElem?_eq_getElem hplt) hless) ?_ (by omega)
        rw [length_swap]
        omega
      · rename_i hless
        refine hready.finish fun a b _ ha hb => ?_
        rw [getElem?_eq_getElem hi] at ha
        rw [getElem?_eq_getElem hplt] at hb
        cases ha
        cases hb
        exact Bool.not_eq_true _ ▸ hless

/-! ## Heaps -/

variable {t : α} {rest : List α}

/-- The top is least. -/
theorem Ordered.top_least (hlt : IsComparison lt)
    (hord : Ordered lt 0 (t :: rest)) {a : α} (ha : a ∈ t :: rest) : lt a t = false := by
  obtain ⟨i, hi⟩ := mem_iff_getElem?.mp ha
  induction i using Nat.strongRecOn generalizing a with
  | ind i ih =>
    by_cases hzero : i = 0
    · rw [hzero] at hi
      cases hi
      exact hlt.irrefl _
    · have hpi := parent_lt (Nat.pos_of_ne_zero hzero)
      have hplt : parent i < (t :: rest).length :=
        Nat.lt_trans hpi (List.getElem_of_getElem? hi).1
      have habove := getElem?_eq_getElem hplt
      exact hlt.notLess_trans (hord i a _ (by omega) (Nat.zero_le _) hi habove)
        (ih _ hpi (getElem_mem hplt) habove)

theorem ordered_nil (k : Nat) : Ordered lt k [] := by
  intro i a b _ _ ha
  cases ha

/-- One element more. -/
theorem add_perm (lt : α → α → Bool) (h : List α) (a : α) : (add lt h a).Perm (a :: h) :=
  (upHeap_perm _ _ _).trans (perm_append_singleton a h)

/-- Adding keeps the order. -/
theorem add_ordered (hlt : IsComparison lt) (hord : Ordered lt 0 h) (a : α) :
    Ordered lt 0 (add lt h a) := by
  refine upHeap_ordered hlt _ ⟨fun j x y hj hne hx hy => ?_, fun j x y hj hparent _ hx _ => ?_⟩
    (by simp) (by omega)
  · have hjlt := (List.getElem_of_getElem? hx).1
    rw [length_append, length_singleton] at hjlt
    have hold : j < h.length := by omega
    have hpold := Nat.lt_trans (parent_lt hj) hold
    rw [getElem?_append_left hold] at hx
    rw [getElem?_append_left hpold] at hy
    exact hord j x y hj (Nat.zero_le _) hx hy
  · have hjlt := (List.getElem_of_getElem? hx).1
    rw [length_append, length_singleton] at hjlt
    unfold parent at hparent
    omega

/-- Changing the top leaves a heap to be sifted. -/
theorem Ordered.of_top (hord : Ordered lt 0 h) {t' : α} (hh : h = t :: rest) :
    Ordered lt 1 (t' :: rest) := by
  subst hh
  intro i a b hi hk ha hb
  obtain ⟨i, rfl⟩ : ∃ k, i = k + 1 := ⟨i - 1, by omega⟩
  obtain ⟨j, hj⟩ : ∃ k, parent (i + 1) = k + 1 := ⟨parent (i + 1) - 1, by omega⟩
  refine hord (i + 1) a b hi (Nat.zero_le _) ha ?_
  rw [hj] at hb ⊢
  exact hb

theorem updateTop_perm (lt : α → α → Bool) (h : List α) : (updateTop lt h).Perm h :=
  downHeap_perm _ _ _

/-- The order after the top has changed. -/
theorem updateTop_ordered (hlt : IsComparison lt) (hord : Ordered lt 1 h) :
    Ordered lt 0 (updateTop lt h) :=
  downHeap_ordered hlt _ hord.downReady (Nat.le_refl 0) (Nat.le_refl _)

theorem Ordered.of_append {more : List α} (hord : Ordered lt k (h ++ more)) : Ordered lt k h := by
  intro i a b hi hk ha hb
  have hilt := (List.getElem_of_getElem? ha).1
  have hplt := (List.getElem_of_getElem? hb).1
  refine hord i a b hi hk ?_ ?_
  · rw [getElem?_append_left hilt]
    exact ha
  · rw [getElem?_append_left hplt]
    exact hb

theorem swap_first_last (t l : α) (rest : List α) :
    swap (t :: (rest ++ [l])) 0 (t :: (rest ++ [l])).length.pred = l :: (rest ++ [t]) := by
  unfold swap
  simp

/-- Taking the top out leaves a heap of the others. -/
theorem pop_spec (hlt : IsComparison lt) (hord : Ordered lt 0 (t :: rest)) :
    Ordered lt 0 (pop lt (t :: rest)) ∧ (pop lt (t :: rest)).Perm rest := by
  rcases eq_nil_or_concat rest with rfl | ⟨init, l, rfl⟩
  · exact ⟨ordered_nil 0, List.Perm.refl _⟩
  · have hpop : pop lt (t :: init.concat l) = updateTop lt (l :: init) := by
      rw [pop, concat_eq_append]
      show updateTop lt (swap _ 0 (t :: (init ++ [l])).length.pred).dropLast = _
      rw [swap_first_last, ← cons_append, dropLast_concat]
    have hone : Ordered lt 1 (l :: init) := by
      rw [concat_eq_append] at hord
      exact hord.of_append.of_top rfl
    rw [hpop]
    refine ⟨updateTop_ordered hlt hone, (updateTop_perm lt _).trans ?_⟩
    rw [concat_eq_append]
    exact (perm_append_singleton l init).symm

/-! ## Sifting with a hole

The same sifts with the moving element kept aside: the elements on its way move by one place, and it
is stored at the end.
-/

/-- Sift `node` up from the hole at `i`. -/
def siftUp (lt : α → α → Bool) : Nat → List α → Nat → α → List α
  | 0, h, i, node => h.set i node
  | fuel + 1, h, i, node =>
    if i = 0 then h.set i node
    else
      match h[parent i]? with
      | some above =>
        if lt node above then siftUp lt fuel (h.set i above) (parent i) node else h.set i node
      | none => h.set i node

/-- Sift `node` down from the hole at `i`. -/
def siftDown (lt : α → α → Bool) : Nat → List α → Nat → α → List α
  | 0, h, i, node => h.set i node
  | fuel + 1, h, i, node =>
    match lesserChild lt h i with
    | none => h.set i node
    | some c =>
      match h[c]? with
      | some child =>
        if lt child node then siftDown lt fuel (h.set i child) c node else h.set i node
      | none => h.set i node

theorem swap_set (hi : i < h.length) (hij : i ≠ j) {other : α} (hother : h[j]? = some other) :
    swap (h.set i node) i j = (h.set i other).set j node := by
  unfold swap
  rw [getElem?_set_self hi, getElem?_set_ne hij, hother]
  simp

/-- Moving a hole up does the same. -/
theorem siftUp_eq (fuel : Nat) (hi : i < h.length) (node : α) :
    siftUp lt fuel h i node = upHeap lt fuel (h.set i node) i := by
  induction fuel generalizing h i with
  | zero => rfl
  | succ fuel ih =>
    unfold siftUp upHeap
    split
    · rfl
    · rename_i hzero
      have hpi := parent_lt (Nat.pos_of_ne_zero hzero)
      have hne := Nat.ne_of_gt hpi
      have hlt := Nat.lt_trans hpi hi
      rw [getElem?_set_self hi, getElem?_set_ne hne, getElem?_eq_getElem hlt]
      dsimp only
      split
      · rw [swap_set hi hne (getElem?_eq_getElem hlt), ih (by simpa using hlt)]
      · rfl

theorem lesserChild_set (i : Nat) (node : α) :
    lesserChild lt (h.set i node) i = lesserChild lt h i := by
  unfold lesserChild
  rw [getElem?_set_ne (by omega), getElem?_set_ne (by omega)]

/-- Moving a hole down does the same. -/
theorem siftDown_eq (hlt : IsComparison lt) (fuel : Nat) (hi : i < h.length) (node : α) :
    siftDown lt fuel h i node = downHeap lt fuel (h.set i node) i := by
  induction fuel generalizing h i with
  | zero => rfl
  | succ fuel ih =>
    unfold siftDown downHeap
    rw [lesserChild_set]
    cases hchild : lesserChild lt h i with
    | none => rfl
    | some c =>
      obtain ⟨hc, hpos, hparent, -⟩ := lesserChild_spec hlt hchild
      have hne : i ≠ c := by
        unfold parent at hparent
        omega
      dsimp only
      rw [getElem?_set_self hi, getElem?_set_ne hne, getElem?_eq_getElem hc]
      dsimp only
      split
      · rw [swap_set hi hne (getElem?_eq_getElem hc), ih (by simpa using hc)]
      · rfl

end BinaryHeap

end RLucene.Lib
