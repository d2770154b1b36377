import Mathlib.Data.List.Sort
import Mathlib.Tactic.Ring

/-!
# Increasing lists, chunks and extrema

Strictly increasing lists of naturals, in which the rank of a value is a `countP`, the splitting of
a list into chunks of a fixed size, as slice iterators do it, and the least and greatest elements
that loops find.
-/

namespace RLucene.Lib

open Nat List

/-! ## Increasing lists -/

/-- The elements of the list increase strictly. -/
abbrev Increasing (l : List Nat) : Prop :=
  l.Pairwise (· < ·)

variable {l : List Nat}

/-- An increasing list is determined by its elements. -/
theorem Increasing.ext {l' : List Nat} (h : Increasing l) (h' : Increasing l')
    (hmem : ∀ a, a ∈ l ↔ a ∈ l') : l = l' := by
  have hnd : l.Nodup := h.imp (fun hlt => ne_of_lt hlt)
  have hnd' : l'.Nodup := h'.imp (fun hlt => ne_of_lt hlt)
  have hperm : l.Perm l' := (perm_ext_iff_of_nodup hnd hnd').mpr hmem
  exact hperm.eq_of_pairwise (fun a b _ _ hab hba => absurd hab (Nat.lt_asymm hba)) h h'

theorem Increasing.range (n : Nat) : Increasing (List.range n) :=
  pairwise_lt_range

variable {n : Nat}

/-- As many numbers below `n` as there can be are all of them. -/
theorem Increasing.eq_range (h : Increasing l) (hlt : ∀ d ∈ l, d < n)
    (hlen : l.length = n) : l = List.range n := by
  have hsub : l ⊆ List.range n := fun d hd => mem_range.mpr (hlt d hd)
  have hnodup : l.Nodup := h.imp fun h => h.ne
  have hperm := (subperm_of_subset hnodup hsub).perm_of_length_le (by simp [hlen])
  exact h.ext (.range n) fun d => hperm.mem_iff

theorem Increasing.filter (h : Increasing l) (p : Nat → Bool) : Increasing (l.filter p) :=
  List.Pairwise.filter p h

theorem Increasing.map_add (h : Increasing l) (k : Nat) : Increasing (l.map (k + ·)) :=
  h.map _ (fun _ _ hab => Nat.add_lt_add_left hab k)

/-- Counting the elements below a bound and those from it on counts the list. -/
theorem countP_lt_add_countP_le (l : List Nat) (k : Nat) :
    l.countP (· < k) + l.countP (k ≤ ·) = l.length := by
  rw [length_eq_countP_add_countP (· < k)]
  congr 1
  apply countP_congr
  intro a _
  simp

variable {k i d t b : Nat}

theorem countP_lt_eq_length (h : ∀ a ∈ l, a < k) : l.countP (· < k) = l.length := by
  rw [countP_eq_length]
  intro a ha
  simpa using h a ha

theorem countP_lt_eq_zero (h : ∀ a ∈ l, k ≤ a) : l.countP (· < k) = 0 := by
  rw [countP_eq_zero]
  intro a ha
  simpa using h a ha

theorem map_add_map_add (l : List Nat) (a b : Nat) :
    (l.map (b + ·)).map (a + ·) = l.map (a + b + ·) := by
  simp [Nat.add_assoc]

theorem countP_lt_map_add (l : List Nat) (k j : Nat) :
    (l.map (k + ·)).countP (· < k + j) = l.countP (· < j) := by
  rw [countP_map]
  apply countP_congr
  intro a _
  simp

/-- The number of elements of an increasing list below one of its elements is its position. -/
theorem Increasing.countP_lt_getElem (h : Increasing l) (hi : i < l.length) :
    l.countP (· < l[i]) = i := by
  have hsplit : l = l.take i ++ l.drop i := (take_append_drop i l).symm
  have hbelow : (l.take i).countP (· < l[i]) = (l.take i).length := by
    apply countP_lt_eq_length
    intro a ha
    obtain ⟨j, hj, rfl⟩ := mem_take_iff_getElem.mp ha
    exact pairwise_iff_getElem.mp h j i (by omega) hi (by omega)
  have habove : (l.drop i).countP (· < l[i]) = 0 := by
    apply countP_lt_eq_zero
    intro a ha
    obtain ⟨j, hj, rfl⟩ := mem_drop_iff_getElem.mp ha
    rcases Nat.eq_zero_or_pos j with rfl | hpos
    · simp
    · exact le_of_lt (pairwise_iff_getElem.mp h i (i + j) hi (by omega) (by omega))
  calc l.countP (· < l[i])
      = (l.take i ++ l.drop i).countP (· < l[i]) := by rw [← hsplit]
    _ = i := by rw [countP_append, hbelow, habove, length_take]; omega

theorem countP_lt_mono {j : Nat} (h : j ≤ k) : l.countP (· < j) ≤ l.countP (· < k) := by
  apply countP_mono_left
  intro a _ ha
  simp only [decide_eq_true_eq] at ha ⊢
  omega

section

variable (h : Increasing l)

include h

/-- A bound moves over an element exactly if it is one of the list. -/
theorem Increasing.countP_lt_succ (k : Nat) :
    l.countP (· < k + 1) = l.countP (· < k) + if k ∈ l then 1 else 0 := by
  induction l with
  | nil => simp
  | cons a l ih =>
    obtain ⟨hhead, htail⟩ := pairwise_cons.mp h
    rw [countP_cons, countP_cons, ih htail]
    by_cases hak : a = k
    · subst hak
      have hnot : a ∉ l := fun hmem => lt_irrefl a (hhead a hmem)
      simp [hnot]
    · have hka : ¬ k = a := fun h => hak h.symm
      simp only [mem_cons, hka, false_or, decide_eq_true_eq]
      split <;> split <;> split <;> omega

/-- The elements below a bound are those with an index below their number. -/
theorem Increasing.getElem_lt_iff (hi : i < l.length) : l[i] < k ↔ i < l.countP (· < k) := by
  have hcount := h.countP_lt_getElem hi
  constructor
  · intro hlt
    have hsucc := h.countP_lt_succ l[i]
    rw [if_pos (getElem_mem hi)] at hsucc
    have := countP_lt_mono (l := l) (show l[i] + 1 ≤ k by omega)
    omega
  · intro hlt
    by_contra hge
    have := countP_lt_mono (l := l) (Nat.le_of_not_lt hge)
    omega

/-- The least element from a bound on is the one whose index is the number of those below it. -/
theorem Increasing.find_eq (k : Nat) : l.find? (k ≤ ·) = l[l.countP (· < k)]? := by
  by_cases hi : l.countP (· < k) < l.length
  · rw [getElem?_eq_getElem hi, find?_eq_some_iff_getElem]
    have hk := h.getElem_lt_iff (k := k) hi
    refine ⟨by simp only [decide_eq_true_eq]; omega, _, hi, rfl, fun j hj => ?_⟩
    have := (h.getElem_lt_iff (k := k) (Nat.lt_trans hj hi)).mpr hj
    simp only [Bool.not_eq_true', decide_eq_false_iff_not]
    omega
  · rw [getElem?_eq_none (by omega), find?_eq_none]
    intro a ha
    have hall : l.countP (· < k) = l.length := by
      have := countP_le_length (p := fun a => decide (a < k)) (l := l)
      omega
    have := countP_eq_length.mp hall a ha
    simp only [decide_eq_true_eq] at this ⊢
    omega

/-- The first from `k` on is the least. -/
theorem Increasing.le_of_find_eq_some {e : Nat}
    (hfind : l.find? (k ≤ ·) = some d) (he : e ∈ l) (hke : k ≤ e) : d ≤ e := by
  rw [h.find_eq] at hfind
  obtain ⟨hi, rfl⟩ := List.getElem_of_getElem? hfind
  obtain ⟨j, hj, rfl⟩ := getElem_of_mem he
  have hge : l.countP (· < k) ≤ j := by
    have := h.getElem_lt_iff (k := k) hj
    omega
  rcases Nat.eq_or_lt_of_le hge with heq | hlt
  · simp only [heq, le_refl]
  · exact le_of_lt (pairwise_iff_getElem.mp h _ j hi hj hlt)

/-- The least from `k` on is found. -/
theorem Increasing.find_eq_some_of (hmem : d ∈ l) (hle : k ≤ d)
    (hmin : ∀ e ∈ l, k ≤ e → d ≤ e) : l.find? (k ≤ ·) = some d := by
  cases hfind : l.find? (k ≤ ·) with
  | none =>
    rw [find?_eq_none] at hfind
    exact absurd (hfind d hmem) (by simpa using hle)
  | some e =>
    have hed := h.le_of_find_eq_some hfind hmem hle
    have hde := hmin e (mem_of_find?_eq_some hfind) (by simpa using find?_some hfind)
    rw [Nat.le_antisymm hed hde]

/-- What an increasing list holds from a bound on starts with the least such element. -/
theorem Increasing.filter_le_eq_cons
    (hfind : l.find? (t ≤ ·) = some d) : l.filter (t ≤ ·) = d :: l.filter (d + 1 ≤ ·) := by
  induction l with
  | nil => simp at hfind
  | cons a l ih =>
    obtain ⟨ha, hl⟩ := pairwise_cons.mp h
    by_cases hta : t ≤ a
    · have hda : a = d := by
        rw [find?_cons_of_pos (by simpa using hta)] at hfind
        exact Option.some.inj hfind
      have hrest (k : Nat) (hk : k ≤ a + 1) : l.filter (k ≤ ·) = l := by
        rw [filter_eq_self]
        intro b hb
        have := ha b hb
        simp only [decide_eq_true_eq]
        omega
      rw [filter_cons_of_pos (by simpa using hta), hrest t (by omega),
        filter_cons_of_neg (by simp [hda]), hrest (d + 1) (by omega), hda]
    · rw [find?_cons_of_neg (by simpa using hta)] at hfind
      have hd : t ≤ d := by simpa using find?_some hfind
      rw [filter_cons_of_neg (by simpa using hta),
        filter_cons_of_neg (by simp only [decide_eq_true_eq]; omega), ih hl hfind]

end

theorem filter_le_eq_nil (hfind : l.find? (t ≤ ·) = none) : l.filter (t ≤ ·) = [] := by
  rw [filter_eq_nil_iff]
  exact find?_eq_none.mp hfind

/-! ## Chunks -/

section

variable {α : Type} {β : Type}

/-- Elements that contribute nothing may be filtered out. -/
theorem flatMap_filter_of_nil (l : List α) (p : α → Bool) (f : α → List β)
    (h : ∀ a, p a = false → f a = []) : (l.filter p).flatMap f = l.flatMap f := by
  induction l with
  | nil => rfl
  | cons a l ih =>
    rw [flatMap_cons, ← ih]
    cases hp : p a with
    | true => rw [filter_cons_of_pos hp, flatMap_cons]
    | false => rw [filter_cons_of_neg (by simp [hp]), h a hp, nil_append]

/-- The first `n` consecutive pieces of size `k`. -/
def pieces (n k : Nat) (l : List α) : List (List α) :=
  (List.range n).map (fun i => (l.drop (k * i)).take k)

/-- All pieces of size `k`, the last one shorter if the length is not a multiple. -/
def chunks (k : Nat) (l : List α) : List (List α) :=
  pieces ((l.length + k - 1) / k) k l

/-- The full pieces of size `k`; a shorter remainder is dropped. -/
def chunksExact (k : Nat) (l : List α) : List (List α) :=
  pieces (l.length / k) k l

/-- Pieces together are the start of the list. -/
theorem pieces_flatten (n k : Nat) (l : List α) : (pieces n k l).flatten = l.take (k * n) := by
  induction n with
  | zero => simp [pieces]
  | succ n ih =>
    rw [pieces, range_succ, map_append, flatten_append, ← pieces, ih, mul_add, mul_one, take_add]
    simp

/-- Chunks together are the list. -/
theorem chunks_flatten (hk : 0 < k) (l : List α) : (chunks k l).flatten = l := by
  rw [chunks, pieces_flatten, take_of_length_le]
  have hdiv := div_add_mod (l.length + k - 1) k
  have hmod := mod_lt (l.length + k - 1) hk
  omega

theorem chunksExact_flatten {k n : Nat} {l : List α} (hk : 0 < k) (hl : l.length = k * n) :
    (chunksExact k l).flatten = l := by
  rw [chunksExact, pieces_flatten, hl, Nat.mul_div_cancel_left _ hk, take_of_length_le]
  rw [hl]

@[simp] theorem pieces_length (n k : Nat) (l : List α) : (pieces n k l).length = n := by
  simp [pieces]

theorem length_chunks_le (hk : 0 < k) (l : List α) : (chunks k l).length ≤ l.length := by
  rw [chunks, pieces_length]
  cases l.length with
  | zero => rw [Nat.div_eq_of_lt (by omega)]
  | succ n =>
    have hmul : n ≤ k * n := Nat.le_mul_of_pos_left _ hk
    exact Nat.div_le_of_le_mul (by rw [Nat.mul_succ]; omega)

theorem pieces_getElem (n k : Nat) (l : List α) (hi : i < (pieces n k l).length) :
    (pieces n k l)[i] = (l.drop (k * i)).take k := by
  simp [pieces]

theorem pieces_take (hi : i ≤ n) (l : List α) : (pieces n k l).take i = pieces i k l := by
  rw [pieces, ← map_take, take_range, min_eq_left hi, ← pieces]

/-- Pieces need no more of the list than they have. -/
theorem pieces_of_take (n k : Nat) (l : List α) : pieces n k (l.take (k * n)) = pieces n k l := by
  refine map_congr_left fun i hi => ?_
  have hroom : k * i + k ≤ k * n := by
    exact Nat.mul_le_mul_left k (mem_range.mp hi)
  rw [drop_take, take_take, min_eq_left (by omega)]

theorem pieces_map (f : α → β) (n k : Nat) (l : List α) :
    pieces n k (l.map f) = (pieces n k l).map (List.map f) := by
  simp [pieces, map_take, map_drop]

theorem pieces_zipWith {γ : Type} (f : α → β → γ) (n k : Nat) (l : List α) (l' : List β) :
    zipWith (zipWith f) (pieces n k l) (pieces n k l') = pieces n k (zipWith f l l') := by
  simp [pieces, zipWith_map, zipWith_self, take_zipWith, drop_zipWith]

/-- The places of the elements of consecutive pieces. -/
theorem pieces_zipIdx (n k : Nat) (l : List α) (hlen : k * n ≤ l.length) :
    (pieces n k l).zipIdx.flatMap (fun piece => piece.1.zipIdx.map fun e =>
      (e.1, piece.2 * k + e.2)) = (l.take (k * n)).zipIdx := by
  induction n with
  | zero => simp [pieces]
  | succ n ih =>
    have hn : k * n ≤ l.length := by
      rw [mul_succ] at hlen
      omega
    have hstep : pieces (n + 1) k l = pieces n k l ++ [(l.drop (k * n)).take k] := by
      rw [pieces, range_succ, map_append, map_singleton, ← pieces]
    rw [hstep, zipIdx_append, flatMap_append, ih hn, mul_succ, take_add, zipIdx_append,
      pieces_length, length_take_of_le hn, zero_add, zero_add, zipIdx_singleton, flatMap_singleton,
      zipIdx_eq_map_add (i := k * n), mul_comm n]

variable {piece : List α}

theorem length_of_mem_pieces {l : List α} (hl : k * n ≤ l.length)
    (hmem : piece ∈ pieces n k l) : piece.length = k := by
  obtain ⟨i, hi, rfl⟩ := mem_map.mp hmem
  have hle : k * i + k ≤ k * n := by
    exact Nat.mul_le_mul_left k (mem_range.mp hi)
  rw [length_take, length_drop]
  omega

theorem length_le_of_mem_chunks {l : List α} (hmem : piece ∈ chunks k l) : piece.length ≤ k := by
  obtain ⟨i, _, rfl⟩ := mem_map.mp hmem
  exact length_take_le _ _

theorem length_of_mem_chunksExact {l : List α} (hk : 0 < k) (hl : l.length = k * n)
    (hmem : piece ∈ chunksExact k l) : piece.length = k := by
  rw [chunksExact, hl, Nat.mul_div_cancel_left _ hk] at hmem
  exact length_of_mem_pieces hl.ge hmem

theorem pieces_append (hlen : piece.length = k) (l : List α) :
    pieces (n + 1) k (piece ++ l) = piece :: pieces n k l := by
  rw [pieces, range_succ_eq_map, map_cons, map_map, Nat.mul_zero, drop_zero, ← hlen, take_left]
  refine congrArg (piece :: ·) (map_congr_left fun i _ => ?_)
  rw [Function.comp_apply, mul_succ, Nat.add_comm, drop_append, drop_of_length_le
    (Nat.le_add_right _ _), nil_append, Nat.add_sub_cancel_left]

@[simp] theorem chunks_nil (k : Nat) : chunks k ([] : List α) = [] := by
  have hcount : (([] : List α).length + k - 1) / k = 0 := by
    rw [length_nil, zero_add]
    exact Nat.div_eq_zero_iff.mpr (by omega)
  rw [chunks, hcount]
  rfl

/-- A whole chunk in front. -/
theorem chunks_append (hk : 0 < k) (hlen : piece.length = k) (l : List α) :
    chunks k (piece ++ l) = piece :: chunks k l := by
  have hcount : ((piece ++ l).length + k - 1) / k = (l.length + k - 1) / k + 1 := by
    rw [length_append, hlen, show k + l.length + k - 1 = (l.length + k - 1) + k by omega,
      add_div_right _ hk]
  rw [chunks, hcount, pieces_append hlen, ← chunks]

/-- A short non-empty list is one chunk. -/
theorem chunks_of_length_le {l : List α} (hne : l ≠ []) (hlen : l.length ≤ k) :
    chunks k l = [l] := by
  have hpos := length_pos_iff.mpr hne
  have hcount : (l.length + k - 1) / k = 1 := by
    rw [show l.length + k - 1 = (l.length - 1) + k by omega, add_div_right _ (by omega),
      div_eq_of_lt (by omega)]
  rw [chunks, hcount]
  simp [pieces, take_of_length_le hlen]

/-- Full groups are the first chunks of a list that starts with them. -/
theorem chunks_flatten_append {groups : List (List α)} (hk : 0 < k)
    (hfull : ∀ g ∈ groups, g.length = k) (rest : List α) :
    chunks k (groups.flatten ++ rest) = groups ++ chunks k rest := by
  induction groups with
  | nil => rfl
  | cons g groups ih =>
    rw [flatten_cons, append_assoc, chunks_append hk (hfull g mem_cons_self),
      ih fun g' hg' => hfull g' (mem_cons_of_mem g hg'), cons_append]

theorem chunks_length (k : Nat) (l : List α) : (chunks k l).length = (l.length + k - 1) / k :=
  pieces_length _ _ _

theorem chunks_getElem {l : List α} (hi : i < (chunks k l).length) :
    (chunks k l)[i] = (l.drop (k * i)).take k :=
  pieces_getElem _ _ _ hi

/-- The chunk that holds an element, and the place of the element in it. -/
theorem exists_chunk {l : List α} (hk : 0 < k) (hi : i < l.length) :
    ∃ g, (chunks k l)[i / k]? = some g ∧ ∃ h : i % k < g.length, g[i % k] = l[i] := by
  have hsum := div_add_mod i k
  have hmod := mod_lt i hk
  have hcount : i / k < (chunks k l).length := by
    rw [chunks_length]
    have hall := div_add_mod (l.length + k - 1) k
    have hrest := mod_lt (l.length + k - 1) hk
    rw [Nat.div_lt_iff_lt_mul hk, mul_comm]
    omega
  have hlen : i % k < ((l.drop (k * (i / k))).take k).length := by
    rw [length_take, length_drop]
    omega
  refine ⟨(l.drop (k * (i / k))).take k, ?_, hlen, ?_⟩
  · rw [getElem?_eq_getElem hcount, chunks_getElem]
  · simp only [getElem_take, getElem_drop, hsum]

/-- A chunk takes what is left, up to its size, and there is something left. -/
theorem chunk_size {l g : List α} (hk : 0 < k) (h : (chunks k l)[b]? = some g) :
    g.length = min k (l.length - b * k) ∧ g ≠ [] := by
  obtain ⟨hb, rfl⟩ := List.getElem_of_getElem? h
  have hlen : ((chunks k l)[b]).length = min k (l.length - b * k) := by
    rw [chunks_getElem, length_take, length_drop, mul_comm]
  refine ⟨hlen, fun hnil => ?_⟩
  rw [hnil, length_nil] at hlen
  rw [chunks_length, Nat.lt_div_iff_mul_lt hk] at hb
  omega

/-- Chunks before the last one are full. -/
theorem length_chunk {l : List α} (hk : 0 < k) (hb : b + 1 < (chunks k l).length) :
    ((chunks k l)[b]).length = k := by
  rw [chunks_getElem, length_take, length_drop]
  rw [chunks_length] at hb
  have hdiv : k * (b + 2) ≤ l.length + k - 1 := by
    calc k * (b + 2) ≤ k * ((l.length + k - 1) / k) := Nat.mul_le_mul_left k (by omega)
      _ ≤ l.length + k - 1 := mul_div_le _ _
  rw [Nat.mul_add] at hdiv
  omega

/-- Consecutive runs of `c` indices make up one run. -/
theorem flatMap_range_map {m c : Nat} (f : Nat → α) :
    (List.range m).flatMap (fun i => (List.range c).map fun j => f (c * i + j)) =
      (List.range (c * m)).map f := by
  induction m with
  | zero => simp
  | succ m ih =>
    rw [range_succ, flatMap_append, ih, mul_succ, range_add, map_append, flatMap_singleton, map_map]
    rfl

end

/-! ## Extrema -/

section

variable {α : Type} [LinearOrder α] {l : List α} {init : α}

/-- The result is at most every element. -/
theorem foldl_min_le (l : List α) (init : α) :
    l.foldl min init ≤ init ∧ ∀ v ∈ l, l.foldl min init ≤ v := by
  induction l generalizing init with
  | nil => exact ⟨le_rfl, by simp⟩
  | cons w l ih =>
    obtain ⟨hinit, hall⟩ := ih (min init w)
    refine ⟨hinit.trans (min_le_left _ _), fun v hv => ?_⟩
    rcases mem_cons.mp hv with rfl | hv
    · exact hinit.trans (min_le_right _ _)
    · exact hall v hv

/-- The result is an element. -/
theorem foldl_min_mem_cons (l : List α) (init : α) : l.foldl min init ∈ init :: l := by
  induction l generalizing init with
  | nil => exact mem_cons_self
  | cons w l ih =>
    rcases mem_cons.mp (ih (min init w)) with hmin | hmem
    · rw [foldl_cons, hmin]
      rcases min_choice init w with h | h <;> simp [h]
    · exact mem_cons_of_mem _ (mem_cons_of_mem _ hmem)

/-- A fold that starts above all elements of a list ends on one of them. -/
theorem foldl_min_mem (h : ∀ v ∈ l, v ≤ init) (hne : l ≠ []) : l.foldl min init ∈ l := by
  rcases mem_cons.mp (foldl_min_mem_cons l init) with hinit | hmem
  · obtain ⟨v, hv⟩ := exists_mem_of_ne_nil l hne
    have hle := (foldl_min_le l init).2 v hv
    rw [hinit] at hle ⊢
    rwa [le_antisymm hle (h v hv)]
  · exact hmem

theorem le_foldl_max (l : List α) (init : α) :
    init ≤ l.foldl max init ∧ ∀ v ∈ l, v ≤ l.foldl max init :=
  @foldl_min_le αᵒᵈ _ l init

theorem foldl_max_mem (h : ∀ v ∈ l, init ≤ v) (hne : l ≠ []) : l.foldl max init ∈ l :=
  @foldl_min_mem αᵒᵈ _ l init h hne

end

section

variable {α : Type} {l : List α} (m : α → Nat)

/-- The numbers of a list, put together bit by bit, are as large as each of them. -/
theorem le_foldl_or (l : List α) (n : Nat) : n ≤ l.foldl (fun n v => n ||| m v) n ∧
    ∀ v ∈ l, m v ≤ l.foldl (fun n v => n ||| m v) n := by
  induction l generalizing n with
  | nil => simp
  | cons w l ih =>
    obtain ⟨hle, hall⟩ := ih (n ||| m w)
    exact ⟨left_le_or.trans hle, forall_mem_cons.mpr ⟨right_le_or.trans hle, hall⟩⟩

/-- Bits stay within the width. -/
theorem foldl_or_lt (hn : n < 2 ^ k) (h : ∀ v ∈ l, m v < 2 ^ k) :
    l.foldl (fun n v => n ||| m v) n < 2 ^ k := by
  induction l generalizing n with
  | nil => exact hn
  | cons w l ih =>
    obtain ⟨hw, hl⟩ := forall_mem_cons.mp h
    exact ih (or_lt_two_pow hn hw) hl

end

/-! ## Places in lists -/

/-- An element that occurs once splits a list in one way. -/
theorem eq_of_append_cons_eq {α : Type} {x : α} {as bs cs ds : List α}
    (hnodup : (as ++ x :: bs).Nodup) (h : as ++ x :: bs = cs ++ x :: ds) : as = cs := by
  have hout : ∀ {us vs : List α}, (us ++ x :: vs).Nodup → x ∉ us := by
    intro us vs hn hin
    exact (nodup_append.mp hn).2.2 x hin x mem_cons_self rfl
  induction as generalizing cs with
  | nil =>
    cases cs with
    | nil => rfl
    | cons c cs =>
      have hc : x = c := (List.cons.inj h).1
      rw [h, hc] at hnodup
      exact absurd mem_cons_self ((hc ▸ hout) hnodup)
  | cons a as ih =>
    cases cs with
    | nil =>
      have ha : a = x := (List.cons.inj h).1
      rw [ha] at hnodup
      exact absurd mem_cons_self (hout hnodup)
    | cons c cs =>
      obtain ⟨rfl, hrest⟩ := List.cons.inj h
      rw [ih (nodup_cons.mp hnodup).2 hrest]

/-- The elements of a filtered list by their places in the list. -/
theorem getElem?_filter_eq_some {α : Type} {p : α → Bool} {l : List α} {x : α}
    (h : (l.filter p)[i]? = some x) :
    ∃ front back, l = front ++ x :: back ∧ p x = true ∧ front.countP p = i := by
  induction l generalizing i with
  | nil => cases h
  | cons a l ih =>
    rw [filter_cons] at h
    split at h
    · rename_i ha
      cases i with
      | zero =>
        cases h
        exact ⟨[], l, rfl, ha, rfl⟩
      | succ i =>
        obtain ⟨front, back, rfl, hx, hcount⟩ := ih h
        exact ⟨a :: front, back, rfl, hx, by rw [countP_cons_of_pos ha, hcount]⟩
    · rename_i ha
      obtain ⟨front, back, rfl, hx, hcount⟩ := ih h
      exact ⟨a :: front, back, rfl, hx, by rw [countP_cons_of_neg ha, hcount]⟩

end RLucene.Lib
