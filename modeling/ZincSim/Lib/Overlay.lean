/-
  ZincSim.Lib.Overlay — partial maps laid over one another.

  `lay map patch` takes the values of `patch` where it has some and those of `map`
  elsewhere.  When no two patches have a key in common, a fold of `lay` leaves under each key
  the value of the one patch that has it, in whatever order the patches come.
-/
import Mathlib

namespace Overlay

variable {κ α : Type*}

/-- `map` with `patch` laid over it. -/
def lay (map patch : κ → Option α) : κ → Option α := fun k => (patch k).or (map k)

/-- No key has a value in both. -/
def Apart (p q : κ → Option α) : Prop := ∀ k, p k = none ∨ q k = none

instance : Std.Symm (Apart : (κ → Option α) → (κ → Option α) → Prop) where
  symm _ _ h k := (h k).symm

theorem lay_of_some {map patch : κ → Option α} {k : κ} {x : α} (h : patch k = some x) :
    lay map patch k = some x := by
  unfold lay
  rw [h, Option.some_or]

theorem lay_of_none {map patch : κ → Option α} {k : κ} (h : patch k = none) :
    lay map patch k = map k := by
  unfold lay
  rw [h, Option.none_or]

/-- Patches that are apart may be swapped. -/
theorem lay_comm {map p q : κ → Option α} (h : Apart p q) :
    lay (lay map p) q = lay (lay map q) p := by
  funext k
  cases h k with
  | inl hp =>
    rw [lay_of_none hp]
    unfold lay
    rw [hp, Option.none_or]
  | inr hq =>
    rw [lay_of_none hq]
    unfold lay
    rw [hq, Option.none_or]

/-- A key that no patch has keeps its value. -/
theorem foldl_lay_of_none {patches : List (κ → Option α)} {k : κ} (map : κ → Option α)
    (h : ∀ p ∈ patches, p k = none) : patches.foldl lay map k = map k := by
  induction patches generalizing map with
  | nil => rfl
  | cons p patches ih =>
    rw [List.foldl_cons, ih _ fun q hq => h q (List.mem_cons_of_mem p hq)]
    exact lay_of_none (h p List.mem_cons_self)

/-- **A key of one of the patches** has that patch's value. -/
theorem foldl_lay_of_mem {patches : List (κ → Option α)} (happart : patches.Pairwise Apart)
    {p : κ → Option α} (hp : p ∈ patches) {k : κ} {x : α} (hk : p k = some x)
    (map : κ → Option α) : patches.foldl lay map k = some x := by
  induction patches generalizing map with
  | nil => cases hp
  | cons q patches ih =>
    obtain ⟨hq, htail⟩ := List.pairwise_cons.mp happart
    rw [List.foldl_cons]
    cases List.mem_cons.mp hp with
    | inl heq =>
      -- the later patches are apart from this one
      subst heq
      have hrest : ∀ r ∈ patches, r k = none := by
        intro r hr
        cases hq r hr k with
        | inl hnone =>
          rw [hk] at hnone
          cases hnone
        | inr hnone => exact hnone
      rw [foldl_lay_of_none _ hrest]
      exact lay_of_some hk
    | inr hmem => exact ih htail hmem _

/-- **Among patches that overlap the last one wins.** -/
theorem foldl_lay_eq (patches : List (κ → Option α)) (map : κ → Option α) (k : κ) :
    patches.foldl lay map k = (patches.reverse.findSome? (· k)).or (map k) := by
  induction patches generalizing map with
  | nil => rfl
  | cons p patches ih =>
    rw [List.foldl_cons, ih, List.reverse_cons, List.findSome?_append, Option.or_assoc]
    congr 1
    rw [List.findSome?_singleton]
    rfl

/-- **The order of patches that are apart does not matter.** -/
theorem foldl_lay_perm {patches patches' : List (κ → Option α)}
    (happart : patches.Pairwise Apart) (h : patches.Perm patches') (map : κ → Option α) :
    patches.foldl lay map = patches'.foldl lay map := by
  apply h.foldl_eq'
  intro p hp q hq m
  by_cases hpq : p = q
  · rw [hpq]
  · exact lay_comm (happart.forall hp hq hpq)

end Overlay
