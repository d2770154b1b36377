import Mathlib.Data.List.DropRight
import Mathlib.Order.Lattice
import Mathlib.Order.Lex

/-!
# The in-place merge sorter

Short ranges are sorted by binary insertion. A longer one is halved, and the sorted halves are
merged without more room: both are cut so that what is before the cuts belongs before what is behind
them, the two middle parts change places, and the pairs on both sides are merged in the same way. A
range of the array is a list here, and elements are compared by a key. `sort_perm` and `sort_sorted`
say that the result is the sorted range.
-/

namespace RLucene.Util.InPlaceMergeSorter

variable {α κ : Type} [LinearOrder κ] (key : α → κ)

/-! ## The sorter -/

/-- `BINARY_SORT_THRESHOLD`. -/
def binarySortThreshold : Nat := 20

/-- A search by halving among `len` positions from `start` on. It goes right behind an element with
`right` and left otherwise. -/
def search (half : Nat → Nat) (right : α → Bool) (l : List α) : (fuel start len : Nat) → Nat
  | 0, start, _ => start
  | fuel + 1, start, len =>
    if len = 0 then start
    else if (l[start + half len]?).any right then
      search half right l fuel (start + half len + 1) (len - half len - 1)
    else search half right l fuel start (half len)

/-- The first position whose element is not below `val`. -/
def lower (l : List α) (val : α) : Nat :=
  search (· / 2) (fun x => key x < key val) l l.length 0 l.length

/-- The first position whose element is above `val`. -/
def upper (l : List α) (val : α) : Nat :=
  search (· / 2) (fun x => !decide (key val < key x)) l l.length 0 l.length

/-- Swap the elements of two parts of the same length one by one. -/
def swapParts : List α → List α → List α × List α
  | x :: xs, y :: ys => (y :: (swapParts xs ys).1, x :: (swapParts xs ys).2)
  | _, _ => ([], [])

/-- Let two neighbouring parts change places. -/
def rotate (xs ys : List α) : List α :=
  if xs = [] ∨ ys = [] then xs ++ ys
  else if xs.length = ys.length then (swapParts xs ys).1 ++ (swapParts xs ys).2
  else (xs.reverse ++ ys.reverse).reverse

/-- Where the two parts are cut: the longer one in the middle, the other one to fit. -/
def cuts (xs ys : List α) : Nat × Nat :=
  if ys.length < xs.length then
    (xs.length / 2, match xs[xs.length / 2]? with
      | some val => lower key ys val
      | none => 0)
  else
    (match ys[ys.length / 2]? with
      | some val => upper key xs val
      | none => 0, ys.length / 2)

/-- Merge two neighbouring parts. -/
def mergeInPlace : (fuel : Nat) → List α → List α → List α
  | 0, xs, ys => xs ++ ys
  | fuel + 1, xs, ys =>
    match xs.getLast?, ys.head? with
    | some x, some y =>
      if key x ≤ key y then xs ++ ys
      else if xs.length + ys.length = 2 then [y, x]
      else
        -- what is in its place already is left out
        let xs' := xs.dropWhile (key · ≤ key y)
        let ys' := ys.rdropWhile (key x ≤ key ·)
        let cut := cuts key xs' ys'
        let rotated := rotate (xs'.drop cut.1) (ys'.take cut.2)
        xs.takeWhile (key · ≤ key y) ++ mergeInPlace fuel (xs'.take cut.1) (rotated.take cut.2) ++
          mergeInPlace fuel (rotated.drop cut.2) (ys'.drop cut.2) ++ ys.rtakeWhile (key x ≤ key ·)
    | _, _ => xs ++ ys

/-- Insert the elements of a list into a sorted one. -/
def binarySort (sorted : List α) : List α → List α
  | [] => sorted
  | pivot :: rest =>
    let position := search (fun len => (len - 1) / 2) (fun x => !decide (key pivot < key x)) sorted
      sorted.length 0 sorted.length
    -- the swaps move the pivot down to its position
    binarySort (sorted.take position ++ pivot :: sorted.drop position) rest

/-- Sort a range whose length the fuel bounds. -/
def mergeSort : (fuel : Nat) → List α → List α
  | 0, l => l
  | fuel + 1, l =>
    if l.length < binarySortThreshold then binarySort key [] l
    else
      let xs := mergeSort fuel (l.take (l.length / 2))
      let ys := mergeSort fuel (l.drop (l.length / 2))
      mergeInPlace key l.length xs ys

/-- Sort a range. -/
def sort (l : List α) : List α :=
  mergeSort key l.length l

/-! ## Permutations -/

open List

/-- Swapping parts of the same length exchanges them. -/
theorem swapParts_eq {xs ys : List α} (h : xs.length = ys.length) : swapParts xs ys = (ys, xs) := by
  induction xs generalizing ys with
  | nil => rw [eq_nil_of_length_eq_zero h.symm, swapParts]; simp
  | cons x xs ih =>
    cases ys with
    | nil => cases h
    | cons y ys => rw [swapParts, ih (by simpa using h)]

/-- The parts change places. -/
theorem rotate_eq (xs ys : List α) : rotate xs ys = ys ++ xs := by
  rw [rotate]
  split
  next hempty => rcases hempty with rfl | rfl <;> simp
  next =>
    split
    next hlen => rw [swapParts_eq hlen]
    next => rw [reverse_append, reverse_reverse, reverse_reverse]

variable {key}

/-- Merging keeps the elements. -/
theorem mergeInPlace_perm (key : α → κ) (fuel : Nat) (xs ys : List α) :
    (mergeInPlace key fuel xs ys).Perm (xs ++ ys) := by
  induction fuel generalizing xs ys with
  | zero => exact .rfl
  | succ fuel ih =>
    rw [mergeInPlace]
    split
    next x y hx hy =>
      split
      · exact .rfl
      · split
        next htwo =>
          obtain ⟨xs, rfl⟩ := getLast?_eq_some_iff.mp hx
          obtain ⟨ys, rfl⟩ := head?_eq_some_iff.mp hy
          simp only [length_append, length_cons, length_nil] at htwo
          rw [eq_nil_of_length_eq_zero (by omega : xs.length = 0),
            eq_nil_of_length_eq_zero (by omega : ys.length = 0)]
          exact .swap x y []
        next =>
          have hxs := takeWhile_append_dropWhile (p := (key · ≤ key y)) (l := xs)
          have hys := rdropWhile_append_rtakeWhile (p := (key x ≤ key ·)) (l := ys)
          generalize xs.takeWhile _ = before, xs.dropWhile _ = xs' at hxs ⊢
          generalize ys.rdropWhile _ = ys', ys.rtakeWhile _ = behind at hys ⊢
          simp only [rotate_eq]
          generalize (cuts key xs' ys').1 = c, (cuts key xs' ys').2 = d
          generalize hmiddle : ys'.take d ++ xs'.drop c = middle
          calc _
            _ ~ before ++ (xs'.take c ++ middle.take d) ++
              (middle.drop d ++ ys'.drop d) ++ behind :=
              (((ih _ _).append_left before).append (ih _ _)).append_right behind
            _ = before ++ (xs'.take c ++ (ys'.take d ++ xs'.drop c)) ++ (ys'.drop d ++ behind) := by
              simp only [append_assoc]
              rw [← append_assoc (take d middle), take_append_drop, ← hmiddle, append_assoc]
            _ ~ before ++ (xs'.take c ++ (xs'.drop c ++ ys'.take d)) ++ (ys'.drop d ++ behind) :=
              ((perm_append_comm.append_left _).append_left _).append_right _
            _ = before ++ xs' ++ (ys' ++ behind) := by
              rw [← append_assoc (take c xs'), take_append_drop]
              simp only [append_assoc]
              rw [← append_assoc (take d ys'), take_append_drop]
            _ = xs ++ ys := by rw [hxs, hys]
    next => exact .rfl

/-- Inserting keeps the elements. -/
theorem binarySort_perm (sorted rest : List α) :
    (binarySort key sorted rest).Perm (sorted ++ rest) := by
  induction rest generalizing sorted with
  | nil => rw [binarySort, append_nil]
  | cons pivot rest ih =>
    rw [binarySort]
    refine (ih _).trans ?_
    rw [append_assoc, cons_append]
    refine perm_middle.trans (.trans ?_ perm_middle.symm)
    rw [← append_assoc, take_append_drop]

/-- Sorting keeps the elements. -/
theorem mergeSort_perm (fuel : Nat) (l : List α) : (mergeSort key fuel l).Perm l := by
  induction fuel generalizing l with
  | zero => exact .rfl
  | succ fuel ih =>
    rw [mergeSort]
    split
    · exact binarySort_perm [] l
    · refine (mergeInPlace_perm _ _ _ _).trans (((ih _).append (ih _)).trans ?_)
      rw [take_append_drop]

/-- Sorting keeps the elements. -/
theorem sort_perm (l : List α) : (sort key l).Perm l :=
  mergeSort_perm _ l

/-! ## Order -/

/-- The keys do not decrease. -/
abbrev Sorted (key : α → κ) (l : List α) : Prop :=
  l.Pairwise fun x y => key x ≤ key y

/-- A search ends where the elements to go right behind end. -/
theorem search_spec {half : Nat → Nat} (hhalf : ∀ n, 0 < n → half n < n)
    {right : α → Bool} {l : List α}
    (hmono : l.Pairwise fun x y => right y = true → right x = true) (fuel : Nat) {start len : Nat}
    (hlen : start + len ≤ l.length) (hfuel : len ≤ fuel)
      (hleft : ∀ x ∈ l.take start, right x = true)
    (hright : ∀ x ∈ l.drop (start + len), right x = false) :
    search half right l fuel start len ≤ l.length ∧
      (∀ x ∈ l.take (search half right l fuel start len), right x = true) ∧
      ∀ x ∈ l.drop (search half right l fuel start len), right x = false := by
  induction fuel generalizing start len with
  | zero =>
    obtain rfl : len = 0 := by omega
    exact ⟨hlen, hleft, hright⟩
  | succ fuel ih =>
    rw [search]
    split
    next hzero =>
      subst hzero
      exact ⟨hlen, hleft, hright⟩
    next hpos =>
      have hlt := hhalf len (by omega)
      obtain ⟨m, hm⟩ : ∃ m, m = start + half len := ⟨_, rfl⟩
      rw [← hm, getElem?_eq_getElem (by omega : m < l.length), Option.any_some]
      have hsplit := take_append_drop m l
      rw [drop_eq_getElem_cons (by omega)] at hsplit
      rw [← hsplit, pairwise_append, pairwise_cons] at hmono
      split
      next hgo =>
        apply ih (by omega) (by omega)
        · rw [take_succ_eq_append_getElem (by omega)]
          exact forall_mem_append.mpr ⟨fun x hx => hmono.2.2 x hx _ mem_cons_self hgo,
            forall_mem_singleton.mpr hgo⟩
        · rwa [show m + 1 + (len - half len - 1) = start + len by omega]
      next hstop =>
        refine ih (by omega) (by omega) hleft ?_
        rw [← hm, drop_eq_getElem_cons (by omega)]
        refine forall_mem_cons.mpr ⟨by simpa using hstop, fun x hx => ?_⟩
        by_contra hright
        exact hstop (hmono.2.1.1 x hx (by simpa using hright))

/-- A search in a whole list. -/
theorem search_all (half : Nat → Nat) (hhalf : ∀ n, 0 < n → half n < n) {right : α → Bool}
    {l : List α} (hmono : l.Pairwise fun x y => right y = true → right x = true) :
    search half right l l.length 0 l.length ≤ l.length ∧
      (∀ x ∈ l.take (search half right l l.length 0 l.length), right x = true) ∧
      ∀ x ∈ l.drop (search half right l l.length 0 l.length), right x = false :=
  search_spec hhalf hmono l.length (by omega) le_rfl (by simp) (by simp)

variable {xs ys : List α} {val : α}

/-- The first that is not before the value. -/
theorem lower_spec (h : Sorted key ys) (val : α) : lower key ys val ≤ ys.length ∧
    (∀ y ∈ ys.take (lower key ys val), key y < key val) ∧
    ∀ y ∈ ys.drop (lower key ys val), key val ≤ key y := by
  have hmono : ys.Pairwise fun x y => decide (key y < key val) = true →
      decide (key x < key val) = true :=
    h.imp fun hle hlt => decide_eq_true (hle.trans_lt (of_decide_eq_true hlt))
  simpa [lower] using search_all (· / 2) (fun n hn => Nat.div_lt_self hn (by omega)) hmono

/-- In a sorted list the elements that are not above a value come first. -/
theorem Sorted.not_above (h : Sorted key xs) (val : α) : xs.Pairwise fun x y =>
    (!decide (key val < key y)) = true → (!decide (key val < key x)) = true := by
  refine h.imp fun hle hge => ?_
  simp only [Bool.not_eq_true', decide_eq_false_iff_not, not_lt] at hge ⊢
  exact hle.trans hge

/-- The first that is behind the value. -/
theorem upper_spec (h : Sorted key xs) (val : α) : upper key xs val ≤ xs.length ∧
    (∀ x ∈ xs.take (upper key xs val), key x ≤ key val) ∧
    ∀ x ∈ xs.drop (upper key xs val), key val < key x := by
  simpa [upper] using search_all (· / 2) (fun n hn => Nat.div_lt_self hn (by omega))
    (h.not_above val)

/-- The cuts of two sorted parts: what is before them does not belong behind what is behind them. -/
structure Cuts (key : α → κ) (xs ys : List α) (c d : Nat) : Prop where
  fst_le : c ≤ xs.length
  snd_le : d ≤ ys.length
  fst_below : ∀ x ∈ xs.take c, ∀ y ∈ ys.drop d, key x ≤ key y
  snd_below : ∀ y ∈ ys.take d, ∀ x ∈ xs.drop c, key y ≤ key x
  lt_length : c + d < xs.length + ys.length
  pos : 2 < xs.length + ys.length → 0 < c + d

/-- In a sorted list an element is not below those before it and not above those behind it. -/
theorem Sorted.split (h : Sorted key xs) {i : Nat} (hi : xs[i]? = some val) :
    (∀ x ∈ xs.take i, key x ≤ key val) ∧ ∀ x ∈ xs.drop i, key val ≤ key x := by
  obtain ⟨hlt, rfl⟩ := List.getElem?_eq_some_iff.mp hi
  have hsplit := take_append_drop i xs
  rw [drop_eq_getElem_cons hlt] at hsplit ⊢
  rw [← hsplit, Sorted, pairwise_append, pairwise_cons] at h
  exact ⟨fun x hx => h.2.2 x hx _ mem_cons_self, forall_mem_cons.mpr ⟨le_rfl, h.2.1.1⟩⟩

/-- What is before the cuts belongs before what is behind them. -/
theorem cuts_spec (hx : Sorted key xs) (hy : Sorted key ys) (hxs : xs ≠ []) (hys : ys ≠ []) :
    Cuts key xs ys (cuts key xs ys).1 (cuts key xs ys).2 := by
  have hxpos := length_pos_of_ne_nil hxs
  have hypos := length_pos_of_ne_nil hys
  rw [cuts]
  split
  next hlong =>
    have hmid : xs[xs.length / 2]? = some _ := getElem?_eq_getElem (by omega)
    obtain ⟨hbefore, hbehind⟩ := hx.split hmid
    obtain ⟨hle, hlow, hhigh⟩ := lower_spec hy xs[xs.length / 2]
    simp only [hmid]
    exact ⟨by omega, hle, fun x hx y hy => (hbefore x hx).trans (hhigh y hy),
      fun y hy x hx => (hlow y hy).le.trans (hbehind x hx), by omega, by omega⟩
  next hlong =>
    have hmid : ys[ys.length / 2]? = some _ := getElem?_eq_getElem (by omega)
    obtain ⟨hbefore, hbehind⟩ := hy.split hmid
    obtain ⟨hle, hlow, hhigh⟩ := upper_spec hx ys[ys.length / 2]
    simp only [hmid]
    exact ⟨hle, by omega, fun x hx y hy => (hlow x hx).trans (hbehind y hy),
      fun y hy x hx => (hbefore y hy).trans (hhigh x hx).le, by omega, by omega⟩

/-- The merged pairs of parts before and behind the cuts are sorted together, and have the
elements. -/
theorem Cuts.merged {c d fuel : Nat} (h : Cuts key xs ys c d) (hx : Sorted key xs)
    (hy : Sorted key ys) (ih : ∀ {xs ys : List α}, xs.length + ys.length ≤ fuel → Sorted key xs →
      Sorted key ys → Sorted key (mergeInPlace key fuel xs ys))
    (hfuel : xs.length + ys.length ≤ fuel + 1)
    (hmore : xs.length + ys.length ≤ fuel ∨ 2 < xs.length + ys.length) {merged : List α}
    (hmerged : mergeInPlace key fuel (xs.take c) (ys.take d) ++
      mergeInPlace key fuel (xs.drop c) (ys.drop d) = merged) :
    Sorted key merged ∧ ∀ z ∈ merged, z ∈ xs ∨ z ∈ ys := by
  subst hmerged
  have hfirst := mergeInPlace_perm key fuel (xs.take c) (ys.take d)
  have hsecond := mergeInPlace_perm key fuel (xs.drop c) (ys.drop d)
  have hc := h.fst_le
  have hd := h.snd_le
  have hlt := h.lt_length
  have hpos := h.pos
  have hsorted := ih (by rw [length_take, length_take]; omega) (hx.sublist (take_sublist c xs))
    (hy.sublist (take_sublist d ys))
  have hsorted' := ih (by rw [length_drop, length_drop]; omega) (hx.sublist (drop_sublist c xs))
    (hy.sublist (drop_sublist d ys))
  have hxs := take_append_drop c xs
  have hys := take_append_drop d ys
  rw [← hxs, Sorted, pairwise_append] at hx
  rw [← hys, Sorted, pairwise_append] at hy
  refine ⟨pairwise_append.mpr ⟨hsorted, hsorted', fun a ha b hb => ?_⟩, fun z hz => ?_⟩
  · rcases mem_append.mp (hfirst.mem_iff.mp ha) with ha | ha <;>
      rcases mem_append.mp (hsecond.mem_iff.mp hb) with hb | hb
    · exact hx.2.2 a ha b hb
    · exact h.fst_below a ha b hb
    · exact h.snd_below a ha b hb
    · exact hy.2.2 a ha b hb
  · rw [mem_append, hfirst.mem_iff, hsecond.mem_iff, mem_append, mem_append] at hz
    rcases hz with (hz | hz) | hz | hz
    · exact .inl (mem_of_mem_take hz)
    · exact .inr (mem_of_mem_take hz)
    · exact .inl (mem_of_mem_drop hz)
    · exact .inr (mem_of_mem_drop hz)

/-- The last element of a sorted list is above the others. -/
theorem Sorted.le_last {x : α} (h : Sorted key xs) (hlast : xs.getLast? = some x) :
    ∀ z ∈ xs, key z ≤ key x := by
  obtain ⟨zs, rfl⟩ := getLast?_eq_some_iff.mp hlast
  rw [Sorted, pairwise_append] at h
  exact forall_mem_append.mpr ⟨fun z hz => h.2.2 z hz x mem_cons_self, by simp⟩

/-- The first one is below the others. -/
theorem Sorted.head_le {y : α} (h : Sorted key ys) (hhead : ys.head? = some y) :
    ∀ z ∈ ys, key y ≤ key z := by
  obtain ⟨zs, rfl⟩ := head?_eq_some_iff.mp hhead
  exact forall_mem_cons.mpr ⟨le_rfl, (pairwise_cons.mp h).1⟩

/-- Two parts that are merged fit between what is before and behind them. -/
theorem Sorted.around {before middle behind : List α} (hx : Sorted key (before ++ xs))
    (hy : Sorted key (ys ++ behind)) (hmiddle : Sorted key middle)
    (hmem : ∀ z ∈ middle, z ∈ xs ∨ z ∈ ys) (hbefore : ∀ a ∈ before, ∀ b ∈ ys, key a ≤ key b)
    (hbehind : ∀ a ∈ before ++ xs, ∀ b ∈ behind, key a ≤ key b) :
    Sorted key (before ++ middle ++ behind) := by
  rw [Sorted, pairwise_append] at hx hy
  refine pairwise_append.mpr ⟨pairwise_append.mpr ⟨hx.1, hmiddle, fun a ha b hb => ?_⟩, hy.2.1,
    fun a ha b hb => ?_⟩
  · exact (hmem b hb).elim (hx.2.2 a ha b) (hbefore a ha b)
  · rcases mem_append.mp ha with ha | ha
    · exact hbehind a (mem_append_left _ ha) b hb
    · exact (hmem a ha).elim (fun ha => hbehind a (mem_append_right _ ha) b hb)
        fun ha => hy.2.2 a ha b hb

/-- Sorted halves are merged. -/
theorem mergeInPlace_sorted (fuel : Nat) (hfuel : xs.length + ys.length ≤ fuel) (hx : Sorted key xs)
    (hy : Sorted key ys) : Sorted key (mergeInPlace key fuel xs ys) := by
  induction fuel generalizing xs ys with
  | zero =>
    rw [eq_nil_of_length_eq_zero (by omega : xs.length = 0),
      eq_nil_of_length_eq_zero (by omega : ys.length = 0)]
    exact .nil
  | succ fuel ih =>
    rw [mergeInPlace]
    split
    next x y hlast hhead =>
      have hxle := hx.le_last hlast
      have hyle := hy.head_le hhead
      split
      next hle =>
        exact pairwise_append.mpr ⟨hx, hy, fun a ha b hb =>
          (hxle a ha).trans (hle.trans (hyle b hb))⟩
      next hgt =>
        split
        · exact pairwise_pair.mpr (le_of_not_ge hgt)
        next htwo =>
          have hxs := takeWhile_append_dropWhile (p := (key · ≤ key y)) (l := xs)
          have hys := rdropWhile_append_rtakeWhile (p := (key x ≤ key ·)) (l := ys)
          have hbefore : ∀ z ∈ xs.takeWhile (key · ≤ key y), key z ≤ key y := fun z hz => by
            simpa using mem_takeWhile_imp hz
          have hbehind : ∀ z ∈ ys.rtakeWhile (key x ≤ key ·), key x ≤ key z := fun z hz => by
            simpa using mem_rtakeWhile_imp hz
          have hxs' : xs.dropWhile (key · ≤ key y) ≠ [] := fun hnil => hgt <| by
            simpa using dropWhile_eq_nil_iff.mp hnil x (mem_of_getLast? hlast)
          have hys' : ys.rdropWhile (key x ≤ key ·) ≠ [] := fun hnil => hgt <| by
            simpa using rdropWhile_eq_nil_iff.mp hnil y (mem_of_head? hhead)
          simp only
          rw [append_assoc (takeWhile _ _)]
          generalize xs.takeWhile _ = before, xs.dropWhile _ = xs' at hxs hbefore hxs' ⊢
          generalize ys.rdropWhile _ = ys', ys.rtakeWhile _ = behind at hys hbehind hys' ⊢
          subst hxs hys
          have hx' := hx.sublist (sublist_append_right before xs')
          have hy' := hy.sublist (sublist_append_left ys' behind)
          have hcut := cuts_spec hx' hy' hxs' hys'
          simp only [rotate_eq]
          generalize (cuts key xs' ys').1 = c, (cuts key xs' ys').2 = d at hcut ⊢
          have hd : (ys'.take d).length = d := length_take_of_le hcut.snd_le
          rw [take_left' hd, drop_left' hd]
          have hxpos := length_pos_of_ne_nil hxs'
          have hypos := length_pos_of_ne_nil hys'
          rw [length_append, length_append] at hfuel htwo
          obtain ⟨hmiddle, hmem⟩ := hcut.merged hx' hy' ih (by omega) (by omega) rfl
          exact hx.around hy hmiddle hmem
            (fun a ha b hb => (hbefore a ha).trans (hyle b (mem_append_left _ hb)))
            fun a ha b hb => (hxle a ha).trans (hbehind b hb)
    next hnone =>
      have hempty : xs = [] ∨ ys = [] := by
        by_contra hboth
        obtain ⟨hxs, hys⟩ := not_or.mp hboth
        exact hnone _ _ (getLast?_eq_some_getLast hxs) (head?_eq_some_head hys)
      rcases hempty with rfl | rfl
      · simpa using hy
      · simpa using hx

/-- Inserting keeps the order. -/
theorem binarySort_sorted {sorted : List α} (rest : List α) (h : Sorted key sorted) :
    Sorted key (binarySort key sorted rest) := by
  induction rest generalizing sorted with
  | nil => exact h
  | cons pivot rest ih =>
    rw [binarySort]
    apply ih
    obtain ⟨-, hlow, hhigh⟩ := search_all (fun len => (len - 1) / 2) (fun n hn => by omega)
      (h.not_above pivot)
    generalize search _ _ sorted _ _ _ = position at hlow hhigh ⊢
    have hsplit := take_append_drop position sorted
    rw [← hsplit, Sorted, pairwise_append] at h
    simp only [Bool.not_eq_true', Bool.not_eq_false', decide_eq_true_eq, decide_eq_false_iff_not,
      not_lt] at hlow hhigh
    refine pairwise_append.mpr ⟨h.1, pairwise_cons.mpr ⟨fun x hx => (hhigh x hx).le, h.2.1⟩, ?_⟩
    intro a ha b hb
    rcases mem_cons.mp hb with rfl | hb
    · exact hlow a ha
    · exact h.2.2 a ha b hb

/-- The result is sorted. -/
theorem mergeSort_sorted (fuel : Nat) {l : List α} (hfuel : l.length ≤ fuel) :
    Sorted key (mergeSort key fuel l) := by
  induction fuel generalizing l with
  | zero =>
    rw [eq_nil_of_length_eq_zero (by omega : l.length = 0)]
    exact .nil
  | succ fuel ih =>
    rw [mergeSort]
    split
    · exact binarySort_sorted l .nil
    next hlong =>
      rw [binarySortThreshold] at hlong
      refine mergeInPlace_sorted _ ?_ (ih ?_) (ih ?_)
      · rw [(mergeSort_perm _ _).length_eq, (mergeSort_perm _ _).length_eq,
          length_take, length_drop]
        omega
      · rw [length_take]
        omega
      · rw [length_drop]
        omega

/-- Sorting puts the elements in order. -/
theorem sort_sorted (key : α → κ) (l : List α) : Sorted key (sort key l) :=
  mergeSort_sorted _ le_rfl

end RLucene.Util.InPlaceMergeSorter
