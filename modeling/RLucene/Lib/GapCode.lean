import RLucene.Lib.Bytes

/-!
# Positions recorded by bounded gaps

Increasing positions are recorded by the gaps between them. Where a gap is longer than the limit,
stops in between are recorded as well, so that every recorded gap is at most the limit. The
positions come with a byte each.
-/

namespace RLucene.Lib

open List

variable {limit : Nat} {fuel prev i p : Nat} {positions : List Nat}

/-- The stops on the way from `prev` to `i`, `i` included: one every `limit` positions until what is
left fits. -/
def stopsTo (limit : Nat) : (fuel prev i : Nat) → List Nat
  | 0, _, i => [i]
  | fuel + 1, prev, i =>
    if limit < i - prev then (prev + limit) :: stopsTo limit fuel (prev + limit) i else [i]

/-- The stops on the way from `prev` through all the positions. -/
def stops (limit : Nat) : (prev : Nat) → List Nat → List Nat
  | _, [] => []
  | prev, i :: positions => stopsTo limit i prev i ++ stops limit i positions

/-- The position a list of positions ends at, when it is entered from `prev`. -/
def lastFrom (prev : Nat) (positions : List Nat) : Nat :=
  positions.getLast?.getD prev

@[simp] theorem lastFrom_nil (prev : Nat) : lastFrom prev [] = prev := rfl

@[simp] theorem lastFrom_cons (prev i : Nat) (positions : List Nat) :
    lastFrom prev (i :: positions) = lastFrom i positions := by
  rw [lastFrom, lastFrom, getLast?_cons, Option.getD_some]

theorem lastFrom_append (prev : Nat) (a b : List Nat) :
    lastFrom prev (a ++ b) = lastFrom (lastFrom prev a) b := by
  induction a generalizing prev with
  | nil => rfl
  | cons i a ih => rw [cons_append, lastFrom_cons, lastFrom_cons, ih]

/-- The stops of some positions after others. -/
theorem stops_append (prev : Nat) (a b : List Nat) :
    stops limit prev (a ++ b) = stops limit prev a ++ stops limit (lastFrom prev a) b := by
  induction a generalizing prev with
  | nil => rfl
  | cons i a ih => rw [cons_append, stops, stops, ih, lastFrom_cons, append_assoc]

theorem mem_stopsTo (fuel prev i : Nat) : i ∈ stopsTo limit fuel prev i := by
  induction fuel generalizing prev with
  | zero => simp [stopsTo]
  | succ fuel ih =>
    rw [stopsTo]
    split
    · exact mem_cons_of_mem _ (ih _)
    · simp

theorem le_of_mem_stopsTo (hp : p ∈ stopsTo limit fuel prev i) : p ≤ i := by
  induction fuel generalizing prev with
  | zero =>
    simp only [stopsTo, mem_singleton] at hp
    omega
  | succ fuel ih =>
    rw [stopsTo] at hp
    split at hp
    · rcases mem_cons.mp hp with rfl | hp
      · omega
      · exact ih hp
    · simp only [mem_singleton] at hp
      omega

/-- Every position is a stop. -/
theorem mem_stops (hp : p ∈ positions) : p ∈ stops limit prev positions := by
  induction positions generalizing prev with
  | nil => cases hp
  | cons i positions ih =>
    rw [stops, mem_append]
    rcases mem_cons.mp hp with rfl | hp
    · exact .inl (mem_stopsTo _ _ _)
    · exact .inr (ih hp)

/-- No stop lies beyond the positions. -/
theorem exists_le_of_mem_stops (hp : p ∈ stops limit prev positions) : ∃ i ∈ positions, p ≤ i := by
  induction positions generalizing prev with
  | nil => cases hp
  | cons i positions ih =>
    rw [stops, mem_append] at hp
    rcases hp with hp | hp
    · exact ⟨i, mem_cons_self, le_of_mem_stopsTo hp⟩
    · obtain ⟨j, hj, hle⟩ := ih hp
      exact ⟨j, mem_cons_of_mem _ hj, hle⟩

/-! ## Gaps -/

/-- Each position is at most the limit behind the one before it. -/
def GapsWithin (limit : Nat) : (prev : Nat) → List Nat → Prop
  | _, [] => True
  | prev, i :: positions => prev ≤ i ∧ i ≤ prev + limit ∧ GapsWithin limit i positions

/-- Gaps of some positions after others. -/
theorem GapsWithin.append {a b : List Nat} (ha : GapsWithin limit prev a)
    (hb : GapsWithin limit (lastFrom prev a) b) : GapsWithin limit prev (a ++ b) := by
  induction a generalizing prev with
  | nil => exact hb
  | cons i a ih =>
    rw [lastFrom_cons] at hb
    exact ⟨ha.1, ha.2.1, ih ha.2.2 hb⟩

theorem lastFrom_stopsTo (start fuel prev i : Nat) :
    lastFrom start (stopsTo limit fuel prev i) = i := by
  induction fuel generalizing start prev with
  | zero => rfl
  | succ fuel ih =>
    rw [stopsTo]
    split
    · rw [lastFrom_cons, ih]
    · rfl

/-- The stops end where the positions end. -/
theorem lastFrom_stops (prev : Nat) (positions : List Nat) :
    lastFrom prev (stops limit prev positions) = lastFrom prev positions := by
  induction positions generalizing prev with
  | nil => rfl
  | cons i positions ih =>
    rw [stops, lastFrom_append, lastFrom_stopsTo, ih, lastFrom_cons]

/-- The stops before a position are near enough. -/
theorem stopsTo_within (hlimit : 0 < limit) (hle : prev ≤ i) (hfuel : i ≤ prev + fuel) :
    GapsWithin limit prev (stopsTo limit fuel prev i) := by
  induction fuel generalizing prev with
  | zero => exact ⟨hle, by omega, trivial⟩
  | succ fuel ih =>
    rw [stopsTo]
    split
    · exact ⟨by omega, le_rfl, ih (by omega) (by omega)⟩
    · exact ⟨hle, by omega, trivial⟩

/-- The stops through increasing positions are never more than the limit apart. -/
theorem stops_within (hlimit : 0 < limit) (hsorted : (prev :: positions).Pairwise (· ≤ ·)) :
    GapsWithin limit prev (stops limit prev positions) := by
  induction positions generalizing prev with
  | nil => trivial
  | cons i positions ih =>
    obtain ⟨hprev, hrest⟩ := pairwise_cons.mp hsorted
    have hle := hprev i mem_cons_self
    refine (stopsTo_within hlimit hle (by omega)).append ?_
    rw [lastFrom_stopsTo]
    exact ih hrest

/-! ## Bytes -/

/-- The bytes that record positions: for each the gap before it, and its own byte. -/
def gapBytes (byteAt : Nat → UInt8) : (prev : Nat) → List Nat → Bytes
  | _, [] => []
  | prev, i :: positions => UInt8.ofNat (i - prev) :: byteAt i :: gapBytes byteAt i positions

theorem gapBytes_length (byteAt : Nat → UInt8) (prev : Nat) (positions : List Nat) :
    (gapBytes byteAt prev positions).length = 2 * positions.length := by
  induction positions generalizing prev with
  | nil => rfl
  | cons i positions ih =>
    rw [gapBytes, length_cons, length_cons, ih, length_cons]
    omega

/-- The bytes of some positions after others. -/
theorem gapBytes_append (byteAt : Nat → UInt8) (prev : Nat) (a b : List Nat) :
    gapBytes byteAt prev (a ++ b) =
      gapBytes byteAt prev a ++ gapBytes byteAt (lastFrom prev a) b := by
  induction a generalizing prev with
  | nil => rfl
  | cons i a ih => simp only [cons_append, gapBytes, ih, lastFrom_cons]

end RLucene.Lib
